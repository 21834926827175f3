import GpuScheduler.Lib.Prog

/-!
# Weakest preconditions under interference

One notion of weakest precondition serves both ways of running a program.  Between two calls of
a program the rest of the world may move the shared state along `rely`; each call of the program
itself must move it along `guar` and keep the invariant `inv`; and what the program holds in
memory must satisfy `held` whenever one of its calls is in flight.

With a trivial interference (`Logic.alone`) this is the ordinary weakest precondition of a program
that runs alone, and `wp_alone_iff` says so.  With interference it is the per-thread obligation of
a rely/guarantee proof, which `GpuScheduler.Lib.Pool` discharges for a whole pool of threads.
-/

namespace GpuScheduler.Lib

/-- The setting in which a program is verified. -/
structure Logic (Op : Type) (Ret : Op → Type) (μ σ χ : Type) where
  /-- What a call does, under a choice of the environment. -/
  exec : (o : Op) → χ → σ → Ret o × σ
  /-- The choices the environment may make at a call. -/
  admits : μ → (o : Op) → χ → σ → Prop
  /-- What holds of the shared state between any two calls of anyone. -/
  inv : σ → Prop
  /-- What the others may do between two calls. -/
  rely : σ → σ → Prop
  /-- What a call of the program may do. -/
  guar : σ → σ → Prop
  /-- What holds of the program's memory while a call is in flight. -/
  held : μ → σ → Prop
  rely_refl : ∀ s, rely s s
  rely_trans : ∀ {s t u}, rely s t → rely t u → rely s u

variable {Op : Type} {Ret : Op → Type} {μ σ χ α β : Type}

/-- The weakest precondition of a program for the postcondition `Q`. -/
def Prog.wp (L : Logic Op Ret μ σ χ) (Q : α → σ → Prop) : Prog Op Ret μ α → σ → Prop
  | .ret a, s => ∀ t, L.rely s t → L.inv t → Q a t
  | .call m o k, s => ∀ t, L.rely s t → L.inv t → L.held m t ∧ ∀ e, L.admits m o e t →
      L.inv (L.exec o e t).2 ∧ L.guar t (L.exec o e t).2 ∧
        (k (L.exec o e t).1).wp L Q (L.exec o e t).2

namespace Prog

variable {L : Logic Op Ret μ σ χ} {Q Q' : α → σ → Prop}

/-- A precondition may be established after the interference. -/
theorem wp_of_forall {p : Prog Op Ret μ α} {s : σ}
    (h : ∀ t, L.rely s t → L.inv t → p.wp L Q t) : p.wp L Q s := by
  cases p with
  | ret a => exact fun t hst ht ↦ h t hst ht t (L.rely_refl t) ht
  | call m o k => exact fun t hst ht ↦ h t hst ht t (L.rely_refl t) ht

/-- Preconditions are stable under the interference. -/
theorem wp.rely {p : Prog Op Ret μ α} {s t : σ} (h : p.wp L Q s) (hst : L.rely s t) :
    p.wp L Q t := by
  cases p with
  | ret a => exact fun u htu hu ↦ h u (L.rely_trans hst htu) hu
  | call m o k => exact fun u htu hu ↦ h u (L.rely_trans hst htu) hu

theorem wp.mono {p : Prog Op Ret μ α} {s : σ} (h : p.wp L Q s)
    (hq : ∀ a s, L.inv s → Q a s → Q' a s) : p.wp L Q' s := by
  induction p generalizing s with
  | ret a => exact fun t hst ht ↦ hq a t ht (h t hst ht)
  | call m o k ih =>
      intro t hst ht
      obtain ⟨hm, hc⟩ := h t hst ht
      refine ⟨hm, fun e he ↦ ?_⟩
      obtain ⟨hi, hg, hk⟩ := hc e he
      exact ⟨hi, hg, ih _ hk⟩

theorem wp_bind {p : Prog Op Ret μ α} {f : α → Prog Op Ret μ β} {Q : β → σ → Prop} {s : σ} :
    (p.bind f).wp L Q s ↔ p.wp L (fun a t ↦ (f a).wp L Q t) s := by
  induction p generalizing s with
  | ret a => exact ⟨fun h t hst _ ↦ h.rely hst, fun h ↦ wp_of_forall h⟩
  | call m o k ih => simp only [bind_call, wp, ih]

/-- Every call the program may issue, whatever the answers, is as `P` says. -/
def Issues (P : μ → Op → Prop) : Prog Op Ret μ α → Prop
  | ret _ => True
  | call m o k => P m o ∧ ∀ r, (k r).Issues P

theorem Issues.mono {P P' : μ → Op → Prop} {p : Prog Op Ret μ α} (hp : p.Issues P)
    (h : ∀ m o, P m o → P' m o) : p.Issues P' := by
  induction p with
  | ret a => trivial
  | call m o k ih => exact ⟨h m o hp.1, fun r ↦ ih r (hp.2 r)⟩

theorem Issues.bind {P : μ → Op → Prop} {p : Prog Op Ret μ α} {f : α → Prog Op Ret μ β}
    (hp : p.Issues P) (hf : ∀ a, (f a).Issues P) : (p.bind f).Issues P := by
  induction p with
  | ret a => exact hf a
  | call m o k ih => exact ⟨hp.1, fun r ↦ ih r (hp.2 r)⟩

/-- When any call that `P` allows does no harm in any state, neither does the program. -/
theorem wp_of_issues {P : μ → Op → Prop} {p : Prog Op Ret μ α} (hp : p.Issues P)
    (h : ∀ m o s, P m o → L.inv s → L.held m s ∧ ∀ e, L.admits m o e s →
      L.inv (L.exec o e s).2 ∧ L.guar s (L.exec o e s).2) {s : σ} :
    p.wp L (fun _ _ ↦ True) s := by
  induction p generalizing s with
  | ret a => exact fun _ _ _ ↦ trivial
  | call m o k ih =>
      intro t _ ht
      obtain ⟨hheld, hcall⟩ := h m o t hp.1 ht
      refine ⟨hheld, fun e he ↦ ?_⟩
      obtain ⟨hinv, hguar⟩ := hcall e he
      exact ⟨hinv, hguar, ih _ (hp.2 _)⟩

end Prog

namespace Act

variable {L : Logic Op Ret μ σ χ} {Q Q' : α → μ → σ → Prop}

/-- The weakest precondition of a program with memory. -/
def wp (L : Logic Op Ret μ σ χ) (x : Act Op Ret μ α) (Q : α → μ → σ → Prop) (m : μ) (s : σ) :
    Prop := (x m).wp L (fun p t ↦ Q p.1 p.2 t) s

theorem wp.mono {x : Act Op Ret μ α} {m : μ} {s : σ} (h : x.wp L Q m s)
    (hq : ∀ a m s, L.inv s → Q a m s → Q' a m s) : x.wp L Q' m s :=
  Prog.wp.mono h fun p t ht ↦ hq p.1 p.2 t ht

theorem wp_of_forall {x : Act Op Ret μ α} {m : μ} {s : σ}
    (h : ∀ t, L.rely s t → L.inv t → x.wp L Q m t) : x.wp L Q m s := Prog.wp_of_forall h

@[simp] theorem wp_bind {x : Act Op Ret μ α} {f : α → Act Op Ret μ β} {Q : β → μ → σ → Prop}
    {m : μ} {s : σ} :
    (x >>= f).wp L Q m s ↔ x.wp L (fun a m t ↦ (f a).wp L Q m t) m s := Prog.wp_bind

theorem wp_pure {a : α} {m : μ} {s : σ} :
    (pure a : Act Op Ret μ α).wp L Q m s ↔ ∀ t, L.rely s t → L.inv t → Q a m t := Iff.rfl

theorem wp_get {Q : μ → μ → σ → Prop} {m : μ} {s : σ} :
    (get : Act Op Ret μ μ).wp L Q m s ↔ ∀ t, L.rely s t → L.inv t → Q m m t := Iff.rfl

theorem wp_modify {f : μ → μ} {Q : Unit → μ → σ → Prop} {m : μ} {s : σ} :
    (modify f : Act Op Ret μ Unit).wp L Q m s ↔
      ∀ t, L.rely s t → L.inv t → Q () (f m) t := Iff.rfl

/-- A call: whatever the others did before it, it keeps the invariant and the guarantee, and the
postcondition holds of its answer. -/
theorem wp_call {o : Op} {Q : Ret o → μ → σ → Prop} {m : μ} {s : σ}
    (h : ∀ t, L.rely s t → L.inv t → L.held m t ∧ ∀ e, L.admits m o e t →
      L.inv (L.exec o e t).2 ∧ L.guar t (L.exec o e t).2 ∧
        ∀ u, L.rely (L.exec o e t).2 u → L.inv u → Q (L.exec o e t).1 m u) :
    (call o : Act Op Ret μ (Ret o)).wp L Q m s := h

/-- Every call the program may issue, whatever it holds and whatever the answers, is as `P` says. -/
def Issues (P : Op → Prop) (x : Act Op Ret μ α) : Prop := ∀ m, (x m).Issues fun _ o ↦ P o

section Issues

variable {P P' : Op → Prop}

theorem Issues.mono {x : Act Op Ret μ α} (hx : x.Issues P) (h : ∀ o, P o → P' o) :
    x.Issues P' := fun m ↦ (hx m).mono fun _ ↦ h

theorem issues_pure {a : α} : (pure a : Act Op Ret μ α).Issues P := fun _ ↦ trivial

theorem issues_get : (get : Act Op Ret μ μ).Issues P := fun _ ↦ trivial

theorem issues_modify {f : μ → μ} : (modify f : Act Op Ret μ Unit).Issues P := fun _ ↦ trivial

theorem issues_call {o : Op} (h : P o) : (call o : Act Op Ret μ (Ret o)).Issues P := fun _ ↦
  ⟨h, fun _ ↦ trivial⟩

theorem issues_bind {x : Act Op Ret μ α} {f : α → Act Op Ret μ β} (hx : x.Issues P)
    (hf : ∀ a, (f a).Issues P) : (x >>= f).Issues P := fun m ↦
  (hx m).bind fun p ↦ hf p.1 p.2

theorem issues_forM {f : β → Act Op Ret μ PUnit} (hf : ∀ b, (f b).Issues P) {xs : List β} :
    (xs.forM f).Issues P := by
  induction xs with
  | nil => exact issues_pure
  | cons x xs ih => exact issues_bind (hf x) fun _ ↦ ih

end Issues

/-- A program as a thread of its own: what it returns and what it held is of no interest to
anyone else. -/
def thread (x : Act Op Ret μ α) (m : μ) : Prog Op Ret μ Unit := (x m).bind fun _ ↦ .ret ()

theorem Issues.thread {P : Op → Prop} {x : Act Op Ret μ α} (hx : x.Issues P) (m : μ) :
    (x.thread m).Issues fun _ o ↦ P o := (hx m).bind fun _ ↦ trivial

theorem wp_thread {x : Act Op Ret μ α} {m : μ} {s : σ} {Q : σ → Prop}
    (hstable : ∀ s t, Q s → L.rely s t → L.inv t → Q t) (h : x.wp L (fun _ _ t ↦ Q t) m s) :
    (x.thread m).wp L (fun _ t ↦ Q t) s :=
  Prog.wp_bind.mpr (Prog.wp.mono h fun _ t _ hq u htu hu ↦ hstable t u hq htu hu)

/-- **The loop rule.**  `I xs` is what holds when the elements `xs` are still to be visited. -/
theorem wp_forM {f : β → Act Op Ret μ PUnit} {I : List β → μ → σ → Prop} {xs : List β} {m : μ}
    {s : σ} (hI : I xs m s)
    (hstable : ∀ m s t, I [] m s → L.rely s t → L.inv t → I [] m t)
    (hstep : ∀ x xs m s, I (x :: xs) m s → (f x).wp L (fun _ m t ↦ I xs m t) m s) :
    (xs.forM f).wp L (fun _ m t ↦ I [] m t) m s := by
  induction xs generalizing m s with
  | nil => exact fun t hst ht ↦ hstable m s t hI hst ht
  | cons x xs ih =>
      refine wp_bind.mpr ((hstep x xs m s hI).mono fun _ m t _ h ↦ ?_)
      exact ih h

end Act

/-! ## Specifications of the calls

When a program's reasons for issuing a call do not depend on where in the program it is, what
each call needs and what its answer tells can be said once. -/

/-- What a program may do and what it learns: `know` is what it knows of its memory all along,
`allowed` what it has to establish before a call, `answer` what the answer of a call tells. -/
structure Spec (L : Logic Op Ret μ σ χ) where
  know : μ → σ → Prop
  allowed : Op → σ → Prop
  answer : (o : Op) → Ret o → σ → Prop
  know_stable : ∀ {m s t}, know m s → L.rely s t → L.inv t → know m t
  answer_stable : ∀ {o r s t}, answer o r s → L.rely s t → L.inv t → answer o r t
  held : ∀ {m s}, know m s → L.inv s → L.held m s
  call : ∀ {m o e s}, know m s → L.inv s → allowed o s → L.admits m o e s →
    L.inv (L.exec o e s).2 ∧ L.guar s (L.exec o e s).2 ∧ know m (L.exec o e s).2 ∧
      answer o (L.exec o e s).1 (L.exec o e s).2

/-- The rule for a call with a specification. -/
theorem Spec.wp_call {L : Logic Op Ret μ σ χ} (S : Spec L) {o : Op} {Q : Ret o → μ → σ → Prop}
    {m : μ} {s : σ} (hk : S.know m s)
    (ha : ∀ t, L.rely s t → L.inv t → S.know m t → S.allowed o t)
    (hq : ∀ r t, L.inv t → S.know m t → S.answer o r t → Q r m t) :
    (Act.call o : Act Op Ret μ (Ret o)).wp L Q m s := by
  refine Act.wp_call fun t hst ht ↦ ?_
  have hkt := S.know_stable hk hst ht
  refine ⟨S.held hkt ht, fun e he ↦ ?_⟩
  obtain ⟨hinv, hguar, hk', hans⟩ := S.call hkt ht (ha t hst ht hkt) he
  exact ⟨hinv, hguar, fun u hu hui ↦
    hq _ u hui (S.know_stable hk' hu hui) (S.answer_stable hans hu hui)⟩

/-! ## Running alone with an invariant -/

/-- The setting in which a program runs alone and each of its calls keeps an invariant. -/
def Logic.solo (exec : (o : Op) → χ → σ → Ret o × σ) (admits : μ → (o : Op) → χ → σ → Prop)
    (inv : σ → Prop) : Logic Op Ret μ σ χ where
  exec := exec
  admits := admits
  inv := inv
  rely := Eq
  guar := fun _ _ ↦ True
  held := fun _ _ ↦ True
  rely_refl := fun _ ↦ rfl
  rely_trans := Eq.trans

/-- The invariant holds after every execution. -/
theorem Prog.Exec.inv {exec : (o : Op) → χ → σ → Ret o × σ} {admits : μ → (o : Op) → χ → σ → Prop}
    {I : σ → Prop} {p : Prog Op Ret μ α} {s t : σ} {a : α} (he : p.Exec exec admits s a t)
    {Q : α → σ → Prop} (h : p.wp (.solo exec admits I) Q s) (hs : I s) : I t := by
  induction he with
  | ret a s => exact hs
  | call ha _ ih =>
      obtain ⟨hinv, -, hk⟩ := (h _ rfl hs).2 _ ha
      exact ih hk hinv

/-! ## Running alone -/

/-- The setting in which a program runs alone: nobody interferes, and nothing but the
postcondition is asked of it. -/
def Logic.alone (exec : (o : Op) → χ → σ → Ret o × σ)
    (admits : μ → (o : Op) → χ → σ → Prop) : Logic Op Ret μ σ χ where
  exec := exec
  admits := admits
  inv := fun _ ↦ True
  rely := Eq
  guar := fun _ _ ↦ True
  held := fun _ _ ↦ True
  rely_refl := fun _ ↦ rfl
  rely_trans := Eq.trans

section Alone

variable {exec : (o : Op) → χ → σ → Ret o × σ} {admits : μ → (o : Op) → χ → σ → Prop}

/-- Alone, the weakest precondition is about the executions of the program. -/
theorem Prog.wp_alone_iff {p : Prog Op Ret μ α} {Q : α → σ → Prop} {s : σ} :
    p.wp (.alone exec admits) Q s ↔ ∀ a t, p.Exec exec admits s a t → Q a t := by
  induction p generalizing s with
  | ret a =>
      constructor
      · rintro h _ _ ⟨⟩
        exact h s rfl trivial
      · rintro h t rfl -
        exact h a s (.ret a s)
  | call m o k ih =>
      constructor
      · rintro h a t ⟨⟩
        rename_i e ha hk
        exact (ih _).mp ((h s rfl trivial).2 e ha).2.2 a t hk
      · rintro h t rfl -
        exact ⟨trivial, fun e he ↦ ⟨trivial, trivial, (ih _).mpr fun a u hu ↦
          h a u (.call he hu)⟩⟩

/-- An invariant of the calls that a program may issue is one of the program. -/
theorem Prog.wp_alone_of_issues {P : μ → Op → Prop} {I : σ → Prop} {p : Prog Op Ret μ α} {s : σ}
    (hp : p.Issues P) (hI : ∀ m o e s, P m o → admits m o e s → I s → I (exec o e s).2)
    (hs : I s) : p.wp (.alone exec admits) (fun _ t ↦ I t) s := by
  induction p generalizing s with
  | ret a =>
      rintro t rfl -
      exact hs
  | call m o k ih =>
      rintro t rfl -
      exact ⟨trivial, fun e he ↦ ⟨trivial, trivial, ih _ (hp.2 _) (hI m o e s hp.1 he hs)⟩⟩

namespace Act

variable {Q : α → μ → σ → Prop}

/-- An invariant of the calls that a program may issue is one of the program. -/
theorem wp_alone_of_issues {P : Op → Prop} {I : σ → Prop} {x : Act Op Ret μ α} {m : μ} {s : σ}
    (hx : x.Issues P) (hI : ∀ m o e s, P o → admits m o e s → I s → I (exec o e s).2)
    (hs : I s) : x.wp (.alone exec admits) (fun _ _ t ↦ I t) m s :=
  Prog.wp_alone_of_issues (hx m) hI hs

@[simp] theorem wp_pure_alone {a : α} {m : μ} {s : σ} :
    (pure a : Act Op Ret μ α).wp (.alone exec admits) Q m s ↔ Q a m s :=
  ⟨fun h ↦ h s rfl trivial, fun h _ hst _ ↦ hst ▸ h⟩

@[simp] theorem wp_get_alone {Q : μ → μ → σ → Prop} {m : μ} {s : σ} :
    (get : Act Op Ret μ μ).wp (.alone exec admits) Q m s ↔ Q m m s :=
  ⟨fun h ↦ h s rfl trivial, fun h _ hst _ ↦ hst ▸ h⟩

@[simp] theorem wp_modify_alone {f : μ → μ} {Q : Unit → μ → σ → Prop} {m : μ} {s : σ} :
    (modify f : Act Op Ret μ Unit).wp (.alone exec admits) Q m s ↔ Q () (f m) s :=
  ⟨fun h ↦ h s rfl trivial, fun h _ hst _ ↦ hst ▸ h⟩

@[simp] theorem wp_call_alone {o : Op} {Q : Ret o → μ → σ → Prop} {m : μ} {s : σ} :
    (call o : Act Op Ret μ (Ret o)).wp (.alone exec admits) Q m s ↔
      ∀ e, admits m o e s → Q (exec o e s).1 m (exec o e s).2 := by
  constructor
  · exact fun h e he ↦ ((h s rfl trivial).2 e he).2.2 _ rfl trivial
  · rintro h t rfl -
    refine ⟨trivial, fun e he ↦ ⟨trivial, trivial, ?_⟩⟩
    rintro u rfl -
    exact h e he

/-- The loop rule for a program that runs alone. -/
theorem wp_forM_alone {f : β → Act Op Ret μ PUnit} {I : List β → μ → σ → Prop} {xs : List β}
    {m : μ} {s : σ} (hI : I xs m s)
    (hstep : ∀ x xs m s, I (x :: xs) m s →
      (f x).wp (.alone exec admits) (fun _ m t ↦ I xs m t) m s) :
    (xs.forM f).wp (.alone exec admits) (fun _ m t ↦ I [] m t) m s :=
  wp_forM hI (fun _ _ _ h hst _ ↦ hst ▸ h) hstep

end Act

end Alone

end GpuScheduler.Lib
