import Mathlib.Logic.Basic

/-!
# Programs that talk to a shared state

`Prog Op Ret μ α` is the type of programs that issue *calls* `o : Op` to something shared, get
an answer of type `Ret o` back, and end with a value of type `α`.  A call carries the local
memory `m : μ` of the program at the moment it is issued, so that one can speak about what a
program holds while its call is in flight.  It is the free monad on the calls, with the memory
made visible.

`Act Op Ret μ` adds the state-passing for that memory and is the monad in which programs are
written.

A program means nothing by itself: its calls have to be executed.  `Exec` runs a program alone,
from one shared state to another, every call being answered by `exec` under some choice
`e : χ` of the environment (a failure, a clock reading) that `admits` allows.  `run` is the same
with the choices given in advance, and can be evaluated.
-/

namespace GpuScheduler.Lib

/-- A program: it is over, or it issues a call and goes on with the answer. -/
inductive Prog (Op : Type) (Ret : Op → Type) (μ α : Type) : Type
  /-- The program is over. -/
  | ret (a : α)
  /-- The call `o` is in flight while the program holds the memory `m`. -/
  | call (m : μ) (o : Op) (k : Ret o → Prog Op Ret μ α)

variable {Op : Type} {Ret : Op → Type} {μ σ χ α β : Type}

namespace Prog

/-- Sequential composition. -/
def bind : Prog Op Ret μ α → (α → Prog Op Ret μ β) → Prog Op Ret μ β
  | ret a, f => f a
  | call m o k, f => call m o fun r ↦ (k r).bind f

@[simp] theorem bind_call (m : μ) (o : Op) (k : Ret o → Prog Op Ret μ α)
    (f : α → Prog Op Ret μ β) : (call m o k).bind f = call m o fun r ↦ (k r).bind f := rfl

/-- Whether the program is over. -/
def isOver : Prog Op Ret μ α → Bool
  | ret _ => true
  | call _ _ _ => false

/-- The call that the program has in flight, if it is not over. -/
def inFlight : Prog Op Ret μ α → Option Op
  | ret _ => none
  | call _ o _ => some o

theorem eq_ret_of_isOver {p : Prog Op Ret μ α} (h : p.isOver = true) : ∃ a, p = ret a := by
  cases p with
  | ret a => exact ⟨a, rfl⟩
  | call m o k => cases h

end Prog

/-- A program with a local memory: the monad in which programs are written. -/
def Act (Op : Type) (Ret : Op → Type) (μ α : Type) : Type := μ → Prog Op Ret μ (α × μ)

namespace Act

instance instMonad : Monad (Act Op Ret μ) where
  pure a := fun m ↦ .ret (a, m)
  bind x f := fun m ↦ (x m).bind fun p ↦ f p.1 p.2

/-- Issue a call and return its answer. -/
def call (o : Op) : Act Op Ret μ (Ret o) := fun m ↦ .call m o fun r ↦ .ret (r, m)

/-- Read the local memory. -/
def get : Act Op Ret μ μ := fun m ↦ .ret (m, m)

/-- Change the local memory. -/
def modify (f : μ → μ) : Act Op Ret μ Unit := fun m ↦ .ret ((), f m)

end Act

/-! ## Running a program alone -/

namespace Prog

variable (exec : (o : Op) → χ → σ → Ret o × σ) (admits : μ → (o : Op) → χ → σ → Prop)

/-- `Exec exec admits p s a t`: run alone from the shared state `s`, the program `p` may end with
the value `a` in the shared state `t`. -/
inductive Exec : Prog Op Ret μ α → σ → α → σ → Prop
  | ret (a : α) (s : σ) : Exec (.ret a) s a s
  | call {m : μ} {o : Op} {k : Ret o → Prog Op Ret μ α} {e : χ} {s t : σ} {a : α} :
      admits m o e s → Exec (k (exec o e s).1) (exec o e s).2 a t → Exec (.call m o k) s a t

/-- Run a program alone, the environment's choice at its `n`-th call being `ω n`. -/
def run : Prog Op Ret μ α → (Nat → χ) → σ → α × σ
  | ret a, _, s => (a, s)
  | call _ o k, ω, s =>
      (k (exec o (ω 0) s).1).run (fun n ↦ ω (n + 1)) (exec o (ω 0) s).2

/-- Every choice that a run makes is an admitted one. -/
def Admits : Prog Op Ret μ α → (Nat → χ) → σ → Prop
  | ret _, _, _ => True
  | call m o k, ω, s => admits m o (ω 0) s ∧
      (k (exec o (ω 0) s).1).Admits (fun n ↦ ω (n + 1)) (exec o (ω 0) s).2

/-- Whether the choices of a run are admitted can be found out by running it. -/
def decAdmits [∀ m o e s, Decidable (admits m o e s)] :
    (p : Prog Op Ret μ α) → (ω : Nat → χ) → (s : σ) → Decidable (p.Admits exec admits ω s)
  | ret _, _, _ => inferInstanceAs (Decidable True)
  | call m o k, ω, s =>
      have := (k (exec o (ω 0) s).1).decAdmits (fun n ↦ ω (n + 1)) (exec o (ω 0) s).2
      inferInstanceAs (Decidable (admits m o (ω 0) s ∧ _))

instance [∀ m o e s, Decidable (admits m o e s)] (p : Prog Op Ret μ α) (ω : Nat → χ) (s : σ) :
    Decidable (p.Admits exec admits ω s) := p.decAdmits exec admits ω s

variable {exec admits}

/-- A run whose choices are admitted is an execution. -/
theorem exec_run {p : Prog Op Ret μ α} {ω : Nat → χ} {s : σ} (h : p.Admits exec admits ω s) :
    p.Exec exec admits s (p.run exec ω s).1 (p.run exec ω s).2 := by
  induction p generalizing ω s with
  | ret a => exact .ret a s
  | call m o k ih => exact .call h.1 (ih _ h.2)

/-- A sequence is executed one part after the other. -/
theorem exec_bind {p : Prog Op Ret μ α} {f : α → Prog Op Ret μ β} {s u : σ} {b : β} :
    (p.bind f).Exec exec admits s b u ↔
      ∃ a t, p.Exec exec admits s a t ∧ (f a).Exec exec admits t b u := by
  constructor
  · intro h
    induction p generalizing s with
    | ret a => exact ⟨a, s, .ret a s, h⟩
    | call m o k ih =>
        cases h with
        | call ha hk =>
            obtain ⟨a, t, hp, hf⟩ := ih _ hk
            exact ⟨a, t, .call ha hp, hf⟩
  · rintro ⟨a, t, hp, hf⟩
    induction hp with
    | ret a s => exact hf
    | call ha _ ih => exact .call ha (ih hf)

/-- Choices that are admitted at any call are admitted in any run. -/
theorem admits_of_forall {p : Prog Op Ret μ α} {ω : Nat → χ} {s : σ}
    (h : ∀ n m o s, admits m o (ω n) s) : p.Admits exec admits ω s := by
  induction p generalizing ω s with
  | ret a => trivial
  | call m o k ih => exact ⟨h 0 m o s, ih _ fun n ↦ h (n + 1)⟩

end Prog

end GpuScheduler.Lib
