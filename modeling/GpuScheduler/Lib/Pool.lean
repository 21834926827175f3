import GpuScheduler.Lib.Logic
import Mathlib.Data.List.Induction
import Mathlib.Logic.Relation

/-!
# Interleaving the calls of many programs

A pool is a shared state together with any number of threads, each a program labelled with a tag
that says what it is.  In a step, a new thread starts, or the call some thread has in flight is
executed atomically and the thread goes on with the answer.  Every interleaving of the calls of
the threads arises in this way.

`Outline.Holds.reach` is the rely/guarantee rule: when every thread meets its weakest precondition,
and what one thread guarantees the others may rely on, the invariant and the threads' own
assertions hold in every reachable pool.  `Outline.Holds.guar` reads off what a single step did.

A proof often needs to remember more than the shared state holds.  `Pool.reach_aux` says that an
auxiliary variable, updated along with each call but never consulted by it, can be added to any
run.

`play` runs a pool along a given schedule, so that single runs can be evaluated.
-/

namespace GpuScheduler.Lib

variable {κ Op : Type} {Ret : Op → Type} {μ σ χ α γ : Type}

/-- Threads over a shared state. -/
structure Pool (κ Op : Type) (Ret : Op → Type) (μ σ α : Type) where
  /-- The threads, each with the tag it was started under. -/
  threads : List (κ × Prog Op Ret μ α)
  shared : σ

namespace Pool

/-- How the calls of a thread are executed; the thread's index and tag are known, for the sake of
history variables. -/
abbrev Handler (κ Op : Type) (Ret : Op → Type) (σ χ : Type) : Type :=
  Nat → κ → (o : Op) → χ → σ → Ret o × σ

/-- Which choices the environment may make at a call of a thread. -/
abbrev Policy (κ Op μ σ χ : Type) : Type := Nat → κ → μ → Op → χ → σ → Prop

section Steps

variable (exec : Handler κ Op Ret σ χ) (admits : Policy κ Op μ σ χ)
  (starts : κ → Prog Op Ret μ α → Prop)

/-- One step of a pool. -/
inductive Step : Pool κ Op Ret μ σ α → Pool κ Op Ret μ σ α → Prop
  /-- A thread starts. -/
  | spawn {ts : List (κ × Prog Op Ret μ α)} {s : σ} {c : κ} {p : Prog Op Ret μ α} :
      starts c p → Step ⟨ts, s⟩ ⟨ts ++ [(c, p)], s⟩
  /-- The call in flight of thread `i` is executed. -/
  | call {ts : List (κ × Prog Op Ret μ α)} {s : σ} {i : Nat} {c : κ} {m : μ} {o : Op}
      {k : Ret o → Prog Op Ret μ α} {e : χ} :
      ts[i]? = some (c, .call m o k) → admits i c m o e s →
      Step ⟨ts, s⟩ ⟨ts.set i (c, k (exec i c o e s).1), (exec i c o e s).2⟩

/-- Any number of steps. -/
abbrev Reach : Pool κ Op Ret μ σ α → Pool κ Op Ret μ σ α → Prop :=
  Relation.ReflTransGen (Step exec admits starts)

end Steps

variable {exec : Handler κ Op Ret σ χ} {admits : Policy κ Op μ σ χ}
  {starts : κ → Prog Op Ret μ α → Prop}

/-- No thread is ever removed. -/
theorem length_le_of_reach {P P' : Pool κ Op Ret μ σ α} (h : Reach exec admits starts P P') :
    P.threads.length ≤ P'.threads.length := by
  induction h with
  | refl => exact Nat.le_refl _
  | tail _ hs ih =>
      refine Nat.le_trans ih ?_
      cases hs with
      | spawn _ => simp
      | call _ _ => simp

/-- Any threads may start one after the other. -/
theorem reach_of_starts {l : List (κ × Prog Op Ret μ α)} (h : ∀ x ∈ l, starts x.1 x.2) (s : σ) :
    Reach exec admits starts ⟨[], s⟩ ⟨l, s⟩ := by
  induction l using List.reverseRecOn with
  | nil => exact .refl
  | append_singleton l x ih =>
      have hinit := ih fun y hy ↦ h y (List.mem_append_left [x] hy)
      exact hinit.tail (.spawn (h x (List.mem_append_right l (List.mem_singleton.mpr rfl))))

/-! ## Given schedules -/

/-- Execute the call that thread `i` has in flight, if it has one. -/
def stepAt (exec : Handler κ Op Ret σ χ) (i : Nat) (e : χ) (P : Pool κ Op Ret μ σ α) :
    Pool κ Op Ret μ σ α :=
  match P.threads[i]? with
  | some (c, .call _ o k) =>
      ⟨P.threads.set i (c, k (exec i c o e P.shared).1), (exec i c o e P.shared).2⟩
  | _ => P

/-- A turn does nothing, or executes a call. -/
theorem stepAt_cases (i : Nat) (e : χ) (P : Pool κ Op Ret μ σ α) :
    P.stepAt exec i e = P ∨ ∃ c m o k, P.threads[i]? = some (c, .call m o k) ∧
      P.stepAt exec i e =
        ⟨P.threads.set i (c, k (exec i c o e P.shared).1), (exec i c o e P.shared).2⟩ := by
  rw [stepAt]
  split
  · rename_i c m o k hi
    exact .inr ⟨c, m, o, k, hi, rfl⟩
  · exact .inl rfl

/-- Whether the choice is admitted at the call that the thread has in flight. -/
def AdmitsAt (admits : Policy κ Op μ σ χ) (i : Nat) (e : χ) (s : σ) :
    Option (κ × Prog Op Ret μ α) → Prop
  | some (c, .call m o _) => admits i c m o e s
  | _ => True

instance [∀ i c m o e s, Decidable (admits i c m o e s)] (i : Nat) (e : χ) (s : σ) :
    (t : Option (κ × Prog Op Ret μ α)) → Decidable (AdmitsAt admits i e s t)
  | some (c, .call m o _) => inferInstanceAs (Decidable (admits i c m o e s))
  | some (_, .ret _) => .isTrue trivial
  | none => .isTrue trivial

/-- Execute the calls of the threads in the given order, the environment choosing as given. -/
def play (exec : Handler κ Op Ret σ χ) : List (Nat × χ) → Pool κ Op Ret μ σ α → Pool κ Op Ret μ σ α
  | [], P => P
  | (i, e) :: l, P => play exec l (P.stepAt exec i e)

/-- Every choice of a given schedule is an admitted one. -/
def Plays (exec : Handler κ Op Ret σ χ) (admits : Policy κ Op μ σ χ) :
    List (Nat × χ) → Pool κ Op Ret μ σ α → Prop
  | [], _ => True
  | (i, e) :: l, P => AdmitsAt admits i e P.shared P.threads[i]? ∧
      Plays exec admits l (P.stepAt exec i e)

/-- Whether the choices of a schedule are admitted can be found out by playing it. -/
def decPlays [∀ i c m o e s, Decidable (admits i c m o e s)] :
    (l : List (Nat × χ)) → (P : Pool κ Op Ret μ σ α) → Decidable (Plays exec admits l P)
  | [], _ => inferInstanceAs (Decidable True)
  | (i, e) :: l, P =>
      have := decPlays l (P.stepAt exec i e)
      inferInstanceAs (Decidable (AdmitsAt admits i e P.shared P.threads[i]? ∧ _))

instance [∀ i c m o e s, Decidable (admits i c m o e s)] (l : List (Nat × χ))
    (P : Pool κ Op Ret μ σ α) : Decidable (Plays exec admits l P) := decPlays l P

theorem reach_stepAt {i : Nat} {e : χ} {P : Pool κ Op Ret μ σ α}
    (h : AdmitsAt admits i e P.shared P.threads[i]?) :
    Reach exec admits starts P (P.stepAt exec i e) := by
  rcases stepAt_cases i e P with heq | ⟨c, m, o, k, hi, heq⟩ <;> rw [heq]
  rw [hi] at h
  exact .single (.call hi h)

/-- A schedule whose choices are admitted is a run. -/
theorem reach_play {l : List (Nat × χ)} {P : Pool κ Op Ret μ σ α} (h : Plays exec admits l P) :
    Reach exec admits starts P (play exec l P) := by
  induction l generalizing P with
  | nil => exact .refl
  | cons x l ih => exact (reach_stepAt h.1).trans (ih h.2)

/-! ## The rely/guarantee rule -/

/-- A proof outline for the threads of a pool: a setting and a postcondition for each thread, and
the proof that what one thread guarantees the others may rely on. -/
structure Outline (exec : Handler κ Op Ret σ χ) (admits : Policy κ Op μ σ χ) (α : Type) where
  /-- The setting in which thread `i` with tag `c` is verified. -/
  logic : Nat → κ → Logic Op Ret μ σ χ
  /-- What holds when the thread is over. -/
  post : Nat → κ → α → σ → Prop
  /-- The invariant all threads share. -/
  inv : σ → Prop
  exec_eq : ∀ i c, (logic i c).exec = exec i c
  admits_eq : ∀ i c, (logic i c).admits = admits i c
  inv_eq : ∀ i c, (logic i c).inv = inv
  guar_rely : ∀ i c j d s t, i ≠ j → inv s → inv t → (logic i c).guar s t →
    (logic j d).rely s t

/-- What the outline asserts of a pool. -/
def Outline.Holds (O : Outline exec admits α) (P : Pool κ Op Ret μ σ α) : Prop :=
  O.inv P.shared ∧
    ∀ (i : Nat) (c : κ) (p : Prog Op Ret μ α), P.threads[i]? = some (c, p) →
      p.wp (O.logic i c) (O.post i c) P.shared

/-- What the outline says about the call of one thread. -/
theorem Outline.Holds.call {O : Outline exec admits α} {ts : List (κ × Prog Op Ret μ α)} {s : σ}
    (h : O.Holds ⟨ts, s⟩) {i : Nat} {c : κ} {m : μ} {o : Op} {k : Ret o → Prog Op Ret μ α}
    (hi : ts[i]? = some (c, .call m o k)) :
    (O.logic i c).held m s ∧ ∀ e, admits i c m o e s →
      O.inv (exec i c o e s).2 ∧ (O.logic i c).guar s (exec i c o e s).2 ∧
        (k (exec i c o e s).1).wp (O.logic i c) (O.post i c) (exec i c o e s).2 := by
  have hw := h.2 i c _ hi s ((O.logic i c).rely_refl s) (by rw [O.inv_eq]; exact h.1)
  rw [O.exec_eq, O.admits_eq, O.inv_eq] at hw
  exact hw

/-- The rule for one step.  `F i` is what is known of the shared state as long as there is no thread
`i`: a thread may rely on it when it starts, and the others must not break it. -/
theorem Outline.Holds.step_fresh {O : Outline exec admits α} {F : Nat → σ → Prop}
    {P P' : Pool κ Op Ret μ σ α}
    (hstart : ∀ i c p s, starts c p → O.inv s → F i s → p.wp (O.logic i c) (O.post i c) s)
    (hfresh : ∀ i c j s t, i ≠ j → (O.logic i c).guar s t → F j s → F j t)
    (h : O.Holds P) (hF : ∀ j, P.threads.length ≤ j → F j P.shared)
    (hs : Step exec admits starts P P') :
    O.Holds P' ∧ ∀ j, P'.threads.length ≤ j → F j P'.shared := by
  cases hs with
  | @spawn ts s c p hp =>
      refine ⟨⟨h.1, fun i d q hq ↦ ?_⟩, fun j hj ↦ hF j ?_⟩
      · rw [List.getElem?_append] at hq
        split at hq
        · exact h.2 i d q hq
        · rename_i hlen
          obtain ⟨_, heq⟩ := List.getElem?_eq_some_iff.mp hq
          simp only [List.getElem_singleton, Prod.mk.injEq] at heq
          obtain ⟨rfl, rfl⟩ := heq
          exact hstart i _ _ s hp h.1 (hF i (Nat.not_lt.mp hlen))
      · simp only [List.length_append] at hj
        exact Nat.le_trans (Nat.le_add_right _ _) hj
  | @call ts s i c m o k e hi ha =>
      obtain ⟨hinv, hguar, hk⟩ := (h.call hi).2 e ha
      have hlt : i < ts.length := (List.getElem?_eq_some_iff.mp hi).1
      refine ⟨⟨hinv, fun j d q hq ↦ ?_⟩, fun j hj ↦ ?_⟩
      · by_cases hij : i = j
        · subst hij
          rw [List.getElem?_set_self hlt] at hq
          simp only [Option.some.injEq, Prod.mk.injEq] at hq
          obtain ⟨rfl, rfl⟩ := hq
          exact hk
        · rw [List.getElem?_set_ne hij] at hq
          exact (h.2 j d q hq).rely (O.guar_rely i c j d _ _ hij h.1 hinv hguar)
      · rw [List.length_set] at hj
        exact hfresh i c j _ _ (Nat.ne_of_lt (Nat.lt_of_lt_of_le hlt hj)) hguar (hF j hj)

/-- **The rely/guarantee rule**, for threads that may rely on something when they start. -/
theorem Outline.Holds.reach_fresh {O : Outline exec admits α} {F : Nat → σ → Prop}
    {P P' : Pool κ Op Ret μ σ α}
    (hstart : ∀ i c p s, starts c p → O.inv s → F i s → p.wp (O.logic i c) (O.post i c) s)
    (hfresh : ∀ i c j s t, i ≠ j → (O.logic i c).guar s t → F j s → F j t)
    (h : O.Holds P) (hF : ∀ j, P.threads.length ≤ j → F j P.shared)
    (hr : Reach exec admits starts P P') :
    O.Holds P' ∧ ∀ j, P'.threads.length ≤ j → F j P'.shared := by
  induction hr with
  | refl => exact ⟨h, hF⟩
  | tail _ hs ih => exact ih.1.step_fresh hstart hfresh ih.2 hs

/-- **The rely/guarantee rule.**  When every thread that starts meets its weakest precondition,
the outline holds in every reachable pool. -/
theorem Outline.Holds.reach {O : Outline exec admits α} {P P' : Pool κ Op Ret μ σ α}
    (hstart : ∀ i c p s, starts c p → O.inv s → p.wp (O.logic i c) (O.post i c) s)
    (h : O.Holds P) (hr : Reach exec admits starts P P') : O.Holds P' :=
  (h.reach_fresh (F := fun _ _ ↦ True) (fun i c p s hp hs _ ↦ hstart i c p s hp hs)
    (fun _ _ _ _ _ _ _ _ ↦ trivial) (fun _ _ ↦ trivial) hr).1

/-- What a step does to the shared state is nothing, or what its thread guarantees. -/
theorem Outline.Holds.guar {O : Outline exec admits α} {P P' : Pool κ Op Ret μ σ α}
    (h : O.Holds P) (hs : Step exec admits starts P P') :
    P'.shared = P.shared ∨ ∃ i c, (O.logic i c).guar P.shared P'.shared := by
  cases hs with
  | spawn _ => exact .inl rfl
  | call hi ha => exact .inr ⟨_, _, ((h.call hi).2 _ ha).2.1⟩

/-- While a call of a thread is in flight, its memory is as the outline says. -/
theorem Outline.Holds.held {O : Outline exec admits α} {P : Pool κ Op Ret μ σ α} (h : O.Holds P)
    {i : Nat} {c : κ} {m : μ} {o : Op} {k : Ret o → Prog Op Ret μ α}
    (hi : P.threads[i]? = some (c, .call m o k)) : (O.logic i c).held m P.shared := (h.call hi).1

/-- When a thread is over, its postcondition holds. -/
theorem Outline.Holds.post {O : Outline exec admits α} {P : Pool κ Op Ret μ σ α} (h : O.Holds P)
    {i : Nat} {c : κ} {a : α} (hi : P.threads[i]? = some (c, .ret a)) :
    O.post i c a P.shared :=
  h.2 i c _ hi P.shared ((O.logic i c).rely_refl _) (by rw [O.inv_eq]; exact h.1)

/-- **The rule of calls.**  `I ts s` relates the tags of the threads to the shared state.  When the
threads issue the calls `K` of their tags only, none of these can break it, and no new thread does,
then it holds in every pool that is reached from one without threads. -/
theorem Reach.inv_of_admitted {I : List κ → σ → Prop} {K : κ → Op → Prop} {s : σ}
    {P : Pool κ Op Ret μ σ α} (h : Reach exec admits starts ⟨[], s⟩ P) (hs : I [] s)
    (hissues : ∀ c p, starts c p → p.Issues fun _ o ↦ K c o)
    (hspawn : ∀ ts c t, I ts t → I (ts ++ [c]) t)
    (hcall : ∀ ts i c m o e t, ts[i]? = some c → K c o → admits i c m o e t → I ts t →
      I ts (exec i c o e t).2) : I (P.threads.map Prod.fst) P.shared := by
  have hboth : I (P.threads.map Prod.fst) P.shared ∧
      ∀ x ∈ P.threads, x.2.Issues fun _ o ↦ K x.1 o := by
    induction h with
    | refl => exact ⟨hs, fun x hx ↦ absurd hx List.not_mem_nil⟩
    | tail _ hstep ih =>
        obtain ⟨hI, hK⟩ := ih
        cases hstep with
        | @spawn ts t c p hp =>
            refine ⟨?_, fun x hx ↦ ?_⟩
            · rw [List.map_append]
              exact hspawn _ c t hI
            · rcases List.mem_append.mp hx with hx | hx
              · exact hK x hx
              · rw [List.mem_singleton.mp hx]
                exact hissues c p hp
        | @call ts t i c m o k e hi ha =>
            obtain ⟨ho, hk⟩ := hK _ (List.mem_of_getElem? hi)
            have htag : (ts.map Prod.fst)[i]? = some c := by rw [List.getElem?_map, hi]; rfl
            refine ⟨?_, fun x hx ↦ ?_⟩
            · -- the thread goes on under its tag
              have hset : (ts.set i (c, k (exec i c o e t).1)).map Prod.fst = ts.map Prod.fst := by
                obtain ⟨_, heq⟩ := List.getElem?_eq_some_iff.mp htag
                rw [List.map_set, ← heq, List.set_getElem_self]
              simp only [hset]
              exact hcall _ i c m o e t htag ho ha hI
            · rcases List.mem_or_eq_of_mem_set hx with hx | rfl
              · exact hK x hx
              · exact hk _
  exact hboth.1

/-- The same for a property of the shared state alone, and calls that do no harm whatever the
environment decides. -/
theorem Reach.inv_of_issues {I : σ → Prop} {K : Op → Prop} {s : σ} {P : Pool κ Op Ret μ σ α}
    (h : Reach exec admits starts ⟨[], s⟩ P) (hs : I s)
    (hissues : ∀ c p, starts c p → p.Issues fun _ o ↦ K o)
    (hcall : ∀ i c o e t, K o → I t → I (exec i c o e t).2) : I P.shared :=
  h.inv_of_admitted (I := fun _ ↦ I) (K := fun _ ↦ K) hs hissues (fun _ _ _ ↦ id)
    fun _ i c _ o e t _ ho _ ↦ hcall i c o e t ho

/-- The same from any pool, for calls that do no harm whoever issues them. -/
theorem Reach.inv_of_calls {I : σ → Prop} {P P' : Pool κ Op Ret μ σ α}
    (h : Reach exec admits starts P P') (hP : I P.shared)
    (hcall : ∀ i c o e t, I t → I (exec i c o e t).2) : I P'.shared := by
  induction h with
  | refl => exact hP
  | tail _ hs ih =>
      cases hs with
      | spawn _ => exact ih
      | call _ _ => exact hcall _ _ _ _ _ ih

/-! ## Auxiliary variables -/

/-- Execute calls and update an auxiliary variable along with each of them. -/
def withAux (exec : Handler κ Op Ret σ χ) (aux : Nat → κ → Op → χ → σ → γ → γ) :
    Handler κ Op Ret (σ × γ) χ :=
  fun i c o e s ↦ ((exec i c o e s.1).1, (exec i c o e s.1).2, aux i c o e s.1 s.2)

/-- An auxiliary variable can be added to any run. -/
theorem reach_aux (aux : Nat → κ → Op → χ → σ → γ → γ) {P P' : Pool κ Op Ret μ σ α}
    (hr : Reach exec admits starts P P') (g : γ) :
    ∃ g', Reach (withAux exec aux) (fun i c m o e s ↦ admits i c m o e s.1) starts
      ⟨P.threads, (P.shared, g)⟩ ⟨P'.threads, (P'.shared, g')⟩ := by
  induction hr with
  | refl => exact ⟨g, .refl⟩
  | tail _ hs ih =>
      obtain ⟨g', ih⟩ := ih
      cases hs with
      | spawn hp => exact ⟨g', ih.tail (.spawn hp)⟩
      | @call ts s i c m o k e hi ha => exact ⟨aux i c o e s g', ih.tail (.call hi ha)⟩

end Pool

end GpuScheduler.Lib
