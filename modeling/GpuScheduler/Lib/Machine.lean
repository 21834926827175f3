import Mathlib.Logic.Relation

/-!
# Machines driven by events

A machine has states and events.  Whether an event can happen depends on the state, and what it
does is a function of it.  A policy singles out the events that are considered, so that one machine
serves both for what may happen at all and for the runs that meet some condition.

`Reach.induct` is the invariant rule, and `Reach.project` relates two machines.  `play` follows
given events, so that single runs can be evaluated.
-/

namespace GpuScheduler.Lib

universe u v

/-- States, and events that act on them. -/
structure Machine (σ : Type u) (ε : Type v) where
  /-- Whether the event can happen. -/
  Enabled : σ → ε → Prop
  /-- What the event does. -/
  next : σ → ε → σ

namespace Machine

variable {σ : Type u} {ε : Type v} (M : Machine σ ε)

/-- One step: an event that can happen and is considered. -/
def Step (K : σ → ε → Prop) (s t : σ) : Prop := ∃ ev, M.Enabled s ev ∧ K s ev ∧ t = M.next s ev

/-- Any number of steps. -/
def Reach (K : σ → ε → Prop) : σ → σ → Prop := Relation.ReflTransGen (M.Step K)

variable {M} {K : σ → ε → Prop}

/-- **The invariant rule.**  What holds at first and is kept by every step from a state that can be
reached holds in every state reached. -/
theorem Reach.induct_reach {I : σ → Prop} {s t : σ} (h : M.Reach K s t) (hs : I s)
    (hstep : ∀ u ev, M.Reach K s u → I u → M.Enabled u ev → K u ev → I (M.next u ev)) : I t := by
  induction h with
  | refl => exact hs
  | tail hr h ih =>
      obtain ⟨ev, he, hk, rfl⟩ := h
      exact hstep _ ev hr ih he hk

/-- The same for a property that every step keeps. -/
theorem Reach.induct {I : σ → Prop} {s t : σ} (h : M.Reach K s t) (hs : I s)
    (hstep : ∀ s ev, I s → M.Enabled s ev → K s ev → I (M.next s ev)) : I t :=
  h.induct_reach hs fun u ev _ ↦ hstep u ev

/-- **The projection rule.**  A run projects to a run of another machine when each step projects to
a step of that one, or to nothing. -/
theorem Reach.project {σ' : Type*} {ε' : Type*} {N : Machine σ' ε'} {L : σ' → ε' → Prop}
    {f : σ → σ'} {s t : σ} (h : M.Reach K s t)
    (hstep : ∀ s ev, M.Enabled s ev → K s ev → f (M.next s ev) = f s ∨
      ∃ ev', N.Enabled (f s) ev' ∧ L (f s) ev' ∧ f (M.next s ev) = N.next (f s) ev') :
    N.Reach L (f s) (f t) := by
  induction h with
  | refl => exact .refl
  | tail _ h ih =>
      obtain ⟨ev, he, hk, rfl⟩ := h
      rcases hstep _ ev he hk with heq | ⟨ev', he', hk', heq⟩
      · rw [heq]
        exact ih
      · exact ih.tail ⟨ev', he', hk', heq⟩

/-! ## Given events -/

variable (M K)

/-- The state after the given events. -/
def play (s : σ) : List ε → σ
  | [] => s
  | ev :: evs => play (M.next s ev) evs

/-- The given events can happen one after the other, and are considered. -/
def Follows (s : σ) : List ε → Prop
  | [] => True
  | ev :: evs => (M.Enabled s ev ∧ K s ev) ∧ Follows (M.next s ev) evs

/-- Whether they do can be found out by going through them. -/
def decFollows [∀ s ev, Decidable (M.Enabled s ev)] [∀ s ev, Decidable (K s ev)] (s : σ) :
    (evs : List ε) → Decidable (M.Follows K s evs)
  | [] => inferInstanceAs (Decidable True)
  | ev :: evs =>
      have := decFollows (M.next s ev) evs
      inferInstanceAs (Decidable ((M.Enabled s ev ∧ K s ev) ∧ _))

instance [∀ s ev, Decidable (M.Enabled s ev)] [∀ s ev, Decidable (K s ev)] (s : σ)
    (evs : List ε) : Decidable (M.Follows K s evs) := M.decFollows K s evs

variable {M K}

theorem reach_play {s : σ} {evs : List ε} (h : M.Follows K s evs) :
    M.Reach K s (M.play s evs) := by
  induction evs generalizing s with
  | nil => exact .refl
  | cons ev evs ih => exact (ih h.2).head ⟨ev, h.1.1, h.1.2, rfl⟩

end Machine

end GpuScheduler.Lib
