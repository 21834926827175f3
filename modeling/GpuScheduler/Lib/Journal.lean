import GpuScheduler.Lib.Logic
import Mathlib.Data.List.Induction

/-!
# Journals

To speak about the order in which a program did things, its calls are executed on a shared state
that keeps a journal of them.  `journal exec keep` does what `exec` does, and writes down those
calls that `keep` selects by their answers.  Nothing in the program can depend on the journal: an
execution without one becomes an execution with one (`Prog.Exec.journal`), and the other way round
(`Prog.Exec.of_journal`).

A `history` says of each call also in which state it was made.  Where what a call does depends on
nothing but the state, the history can be recovered from the journal by a `replay`
(`Prog.Exec.chronicle`).

When the entries of a journal are tagged by who made them, `Contiguous` says that nobody came in
between, entries of an exempt kind apart.
-/

namespace GpuScheduler.Lib

variable {Op : Type} {Ret : Op → Type} {μ σ χ α : Type}

/-- Execute calls, and keep a journal of them. -/
def journal (exec : (o : Op) → χ → σ → Ret o × σ) (keep : (o : Op) → Ret o → Bool) (o : Op)
    (e : χ) (x : σ × List Op) : Ret o × (σ × List Op) :=
  ((exec o e x.1).1, (exec o e x.1).2,
    if keep o (exec o e x.1).1 then x.2 ++ [o] else x.2)

namespace Prog

variable {exec : (o : Op) → χ → σ → Ret o × σ} {keep : (o : Op) → Ret o → Bool}
  {admits : μ → (o : Op) → χ → σ → Prop} {p : Prog Op Ret μ α} {a : α}

/-- Every execution can be journaled. -/
theorem Exec.journal {s t : σ} (h : p.Exec exec admits s a t) (l : List Op) :
    ∃ l', p.Exec (journal exec keep) (fun m o e x ↦ admits m o e x.1) (s, l) a (t, l') := by
  induction h generalizing l with
  | ret a s => exact ⟨l, .ret a (s, l)⟩
  | @call m o k e s t a hadm _ ih =>
      obtain ⟨l', hl'⟩ := ih (if keep o (exec o e s).1 then l ++ [o] else l)
      exact ⟨l', .call (s := (s, l)) hadm hl'⟩

/-- What is journaled is an execution. -/
theorem Exec.of_journal {x y : σ × List Op}
    (h : p.Exec (Lib.journal exec keep) (fun m o e x ↦ admits m o e x.1) x a y) :
    p.Exec exec admits x.1 a y.1 := by
  induction h with
  | ret a x => exact .ret a x.1
  | call hadm _ ih => exact .call hadm ih

/-- A program adds to the journal, and what it adds does not depend on what is there. -/
theorem Exec.journal_append {x y : σ × List Op}
    (h : p.Exec (Lib.journal exec keep) (fun m o e x ↦ admits m o e x.1) x a y) :
    ∃ l, y.2 = x.2 ++ l ∧
      p.Exec (Lib.journal exec keep) (fun m o e x ↦ admits m o e x.1) (x.1, []) a (y.1, l) := by
  -- for the induction, the journal that is there is any one
  have hgo : ∃ l, y.2 = x.2 ++ l ∧ ∀ l₀, p.Exec (Lib.journal exec keep)
      (fun m o e x ↦ admits m o e x.1) (x.1, l₀) a (y.1, l₀ ++ l) := by
    induction h with
    | ret a x =>
        refine ⟨[], (List.append_nil _).symm, fun l₀ ↦ ?_⟩
        rw [List.append_nil]
        exact .ret a (x.1, l₀)
    | @call m o k e x y a hadm _ ih =>
        obtain ⟨l, hl, hrest⟩ := ih
        simp only [Lib.journal] at hl hrest
        by_cases hkeep : keep o (exec o e x.1).1 = true
        · rw [if_pos hkeep, List.append_assoc] at hl
          refine ⟨[o] ++ l, hl, fun l₀ ↦ .call (s := (x.1, l₀)) hadm ?_⟩
          simp only [Lib.journal, if_pos hkeep]
          rw [← List.append_assoc]
          exact hrest (l₀ ++ [o])
        · rw [if_neg hkeep] at hl
          refine ⟨l, hl, fun l₀ ↦ .call (s := (x.1, l₀)) hadm ?_⟩
          simp only [Lib.journal, if_neg hkeep]
          exact hrest l₀
  obtain ⟨l, hl, hrest⟩ := hgo
  exact ⟨l, hl, hrest []⟩

/-- In the journal there is nothing but what the program issues. -/
theorem Exec.forall_journal {P : Op → Prop} {x y : σ × List Op}
    (h : p.Exec (Lib.journal exec keep) (fun m o e x ↦ admits m o e x.1) x a y)
    (hp : p.Issues fun _ o ↦ P o) (hx : ∀ o ∈ x.2, P o) : ∀ o ∈ y.2, P o := by
  induction h with
  | ret a x => exact hx
  | @call m o k e x y a _ _ ih =>
      refine ih (hp.2 _) fun o' ho' ↦ ?_
      simp only [Lib.journal] at ho'
      split at ho'
      · rcases List.mem_append.mp ho' with ho' | ho'
        · exact hx o' ho'
        · exact List.mem_singleton.mp ho' ▸ hp.1
      · exact hx o' ho'

end Prog

/-! ## Histories -/

/-- Execute calls, and keep a history of them. -/
def history (exec : (o : Op) → χ → σ → Ret o × σ) (keep : (o : Op) → Ret o → Bool) (o : Op)
    (e : χ) (x : σ × List (σ × Op)) : Ret o × (σ × List (σ × Op)) :=
  ((exec o e x.1).1, (exec o e x.1).2,
    if keep o (exec o e x.1).1 then x.2 ++ [(x.1, o)] else x.2)

/-- What the calls `l` make of a state, one after the other. -/
def replay (step : Op → σ → σ) (s : σ) (l : List Op) : σ := l.foldl (fun s o ↦ step o s) s

/-- The calls `l`, each with the state in which it is made. -/
def chronicle (step : Op → σ → σ) (s : σ) : List Op → List (σ × Op)
  | [] => []
  | o :: l => (s, o) :: chronicle step (step o s) l

section Replay

variable {step : Op → σ → σ} {s : σ}

@[simp] theorem replay_append (l l' : List Op) :
    replay step s (l ++ l') = replay step (replay step s l) l' := List.foldl_append

/-- What is done later is done in the state that was reached before. -/
theorem chronicle_append (l l' : List Op) : chronicle step s (l ++ l') =
    chronicle step s l ++ chronicle step (replay step s l) l' := by
  induction l generalizing s with
  | nil => rfl
  | cons o l ih => exact congrArg ((s, o) :: ·) ih

@[simp] theorem map_snd_chronicle (l : List Op) : (chronicle step s l).map Prod.snd = l := by
  induction l generalizing s with
  | nil => rfl
  | cons o l ih => exact congrArg (o :: ·) ih

/-- A call of a chronicle is one of its calls. -/
theorem snd_mem_of_mem_chronicle {l : List Op} {x : σ × Op} (h : x ∈ chronicle step s l) :
    x.2 ∈ l := by
  have hmem := List.mem_map_of_mem (f := Prod.snd) h
  rwa [map_snd_chronicle] at hmem

/-- Every call of a chronicle is made in some state. -/
theorem exists_mem_chronicle {l : List Op} {o : Op} (h : o ∈ l) :
    ∃ t, (t, o) ∈ chronicle step s l := by
  have hmap : (chronicle step s l).map Prod.snd = l := map_snd_chronicle l
  rw [← hmap] at h
  obtain ⟨x, hx, rfl⟩ := List.mem_map.mp h
  exact ⟨x.1, hx⟩

/-- What every call keeps holds in every state of a chronicle. -/
theorem forall_chronicle {I : σ → Prop} {l : List Op} (hs : I s)
    (hstep : ∀ o ∈ l, ∀ t, I t → I (step o t)) : ∀ x ∈ chronicle step s l, I x.1 := by
  induction l generalizing s with
  | nil => exact fun x hx ↦ absurd hx List.not_mem_nil
  | cons o l ih =>
      intro x hx
      rcases List.mem_cons.mp hx with rfl | hx
      · exact hs
      · refine ih (hstep o List.mem_cons_self s hs) (fun o' ho' ↦ ?_) x hx
        exact hstep o' (List.mem_cons_of_mem o ho')

end Replay

namespace Prog

variable {exec : (o : Op) → χ → σ → Ret o × σ} {keep : (o : Op) → Ret o → Bool}
  {admits : μ → (o : Op) → χ → σ → Prop} {p : Prog Op Ret μ α} {a : α}

/-- Every execution has a history. -/
theorem Exec.history {s t : σ} (h : p.Exec exec admits s a t) (l : List (σ × Op)) :
    ∃ l', p.Exec (history exec keep) (fun m o e x ↦ admits m o e x.1) (s, l) a (t, l') := by
  induction h generalizing l with
  | ret a s => exact ⟨l, .ret a (s, l)⟩
  | @call m o k e s t a hadm _ ih =>
      obtain ⟨l', hl'⟩ := ih (if keep o (exec o e s).1 then l ++ [(s, o)] else l)
      exact ⟨l', .call (s := (s, l)) hadm hl'⟩

/-- A history without its states is a journal. -/
theorem Exec.journal_of_history {x y : σ × List (σ × Op)}
    (h : p.Exec (Lib.history exec keep) (fun m o e x ↦ admits m o e x.1) x a y) :
    p.Exec (Lib.journal exec keep) (fun m o e x ↦ admits m o e x.1) (x.1, x.2.map Prod.snd) a
      (y.1, y.2.map Prod.snd) := by
  induction h with
  | ret a x => exact .ret a _
  | @call m o k e x y a hadm _ ih =>
      refine .call (s := (x.1, x.2.map Prod.snd)) hadm ?_
      have hlog : (Lib.history exec keep o e x).2.2.map Prod.snd =
          if keep o (exec o e x.1).1 then x.2.map Prod.snd ++ [o] else x.2.map Prod.snd := by
        simp only [Lib.history]
        split
        · rw [List.map_append]
          rfl
        · rfl
      rw [hlog] at ih
      exact ih

/-- **A history is the chronicle of its journal**, when what the calls do to the state does not
depend on the environment. -/
theorem Exec.chronicle {step : Op → σ → σ} {P : Op → Prop} {x y : σ × List (σ × Op)}
    (h : p.Exec (Lib.history exec keep) (fun m o e x ↦ admits m o e x.1) x a y)
    (hp : p.Issues fun _ o ↦ P o)
    (hstep : ∀ m o e s, P o → admits m o e s →
      (exec o e s).2 = step o s ∧ keep o (exec o e s).1 = true) (l₀ : List Op) :
    ∃ l, y.1 = replay step x.1 l ∧ y.2 = x.2 ++ Lib.chronicle step x.1 l ∧
      p.Exec (Lib.journal exec keep) (fun m o e x ↦ admits m o e x.1) (x.1, l₀) a
        (y.1, l₀ ++ l) := by
  induction h generalizing l₀ with
  | ret a x => exact ⟨[], rfl, (List.append_nil _).symm, by rw [List.append_nil]; exact .ret a _⟩
  | @call m o k e x y a hadm _ ih =>
      obtain ⟨heff, hkeep⟩ := hstep m o e x.1 hp.1 hadm
      obtain ⟨l, hstate, hhist, hexec⟩ := ih (hp.2 _) (l₀ ++ [o])
      simp only [Lib.history, heff, hkeep, if_true] at hstate hhist hexec
      refine ⟨o :: l, hstate, ?_, ?_⟩
      · rw [hhist, List.append_assoc]
        rfl
      · refine .call (s := (x.1, l₀)) hadm ?_
        simp only [Lib.journal, heff, hkeep, if_true]
        rw [List.append_cons l₀ o l]
        exact hexec

end Prog

/-! ## Entries that stand together -/

section Together

variable {ε τ : Type} (tag : ε → τ) (exempt : ε → Prop)

/-- Between two entries with the same tag there is none with another.  Exempt entries may stand
anywhere. -/
def Contiguous (l : List ε) : Prop :=
  ∀ before x between z after, l = before ++ x :: (between ++ z :: after) → tag x = tag z →
    ¬ exempt z → ∀ y ∈ between, tag y = tag x ∨ exempt y

/-- Since the first entry with the tag there is none with another, exempt ones apart. -/
def EndsWith (t : τ) (l : List ε) : Prop :=
  ∀ before x after, l = before ++ x :: after → tag x = t → ∀ y ∈ after, tag y = t ∨ exempt y

variable {tag exempt} {l : List ε} {t : τ} {w : ε}

theorem Contiguous.nil : Contiguous tag exempt [] := by
  intro before x between z after h
  simp at h

/-- An entry may be added if it is exempt, or if the journal ends with its tag. -/
theorem Contiguous.concat (h : Contiguous tag exempt l)
    (hw : exempt w ∨ EndsWith tag exempt (tag w) l) : Contiguous tag exempt (l ++ [w]) := by
  intro before x between z after hl hxz hz
  induction after using List.reverseRecOn with
  | append_singleton after v _ =>
      -- both entries were there before
      have heq : l ++ [w] = (before ++ x :: (between ++ z :: after)) ++ [v] := by
        rw [hl]
        simp
      exact h before x between z after (List.append_inj' heq rfl).1 hxz hz
  | nil =>
      have heq : l ++ [w] = (before ++ x :: between) ++ [z] := by
        rw [hl]
        simp
      obtain ⟨hbefore, hlast⟩ := List.append_inj' heq rfl
      obtain rfl : w = z := List.singleton_inj.mp hlast
      rw [hxz]
      exact hw.resolve_left hz before x between hbefore hxz

/-- A tag that is new is one that the journal ends with. -/
theorem EndsWith.of_forall_ne (h : ∀ x ∈ l, tag x ≠ t) : EndsWith tag exempt t l := by
  rintro before x after rfl hx
  exact absurd hx (h x (by simp))

/-- It stays so when an entry with the tag, or an exempt one, is added. -/
theorem EndsWith.concat (h : EndsWith tag exempt t l) (hw : tag w = t ∨ exempt w) :
    EndsWith tag exempt t (l ++ [w]) := by
  intro before x after hl hx y hy
  induction after using List.reverseRecOn with
  | nil => cases hy
  | append_singleton after v _ =>
      have heq : l ++ [w] = (before ++ x :: after) ++ [v] := by
        rw [hl]
        simp
      obtain ⟨hbefore, hlast⟩ := List.append_inj' heq rfl
      obtain rfl : w = v := List.singleton_inj.mp hlast
      rcases List.mem_append.mp hy with hy | hy
      · exact h before x after hbefore hx y hy
      · rwa [List.mem_singleton.mp hy]

end Together

end GpuScheduler.Lib
