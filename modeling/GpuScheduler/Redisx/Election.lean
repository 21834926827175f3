import GpuScheduler.Redisx.Leader

/-!
# Who owns the lease, and who leads

The owner of the key changes when the key expires and when its owner releases it, and in no other
way: `lease_kept`.  An elector whose key has expired goes on leading until `keepAlive` learns of
it, so for a while there may be two leaders.  There is at most one as long as the key does not
expire under an elector that leads, or is about to: `one_leader_of_expiresUnused`.

Both rest on the same argument.  A property of electors that arises with a successful `tryAcquire`
only, and ends with a `release` at the latest, marks the owner of the key (`owner_of_next`).
-/

namespace GpuScheduler.Redisx

open Lib Models

variable {ι : Type} [DecidableEq ι] {ttl : Duration} {w : Election ι}

namespace Elector

/-- Inside `lead`, with a context that is not done. -/
def Leads (x : Elector) : Prop := x.phase = .leading ∧ x.cancelled = false

/-- Inside `lead` or about to enter it, with a context that is not done. -/
def Live (x : Elector) : Prop := (x.phase = .acquired ∨ x.phase = .leading) ∧ x.cancelled = false

/-- In a term, up to its release, for which the key has not expired. -/
def Holding (x : Elector) : Prop :=
  x.phase ∈ [Phase.acquired, .leading, .returned, .releasing] ∧ x.expired = false

instance (x : Elector) : Decidable x.Leads :=
  inferInstanceAs (Decidable (x.phase = .leading ∧ x.cancelled = false))

instance (x : Elector) : Decidable x.Live :=
  inferInstanceAs (Decidable ((x.phase = .acquired ∨ x.phase = .leading) ∧ x.cancelled = false))

theorem Leads.live {x : Elector} (h : x.Leads) : x.Live := ⟨.inr h.1, h.2⟩

/-- What the goroutines of `keepAlive` and a shutdown do to an elector: at most, they cancel. -/
structure Inert (x y : Elector) : Prop where
  phase : y.phase = x.phase
  expired : y.expired = x.expired
  cancelled : x.cancelled = true → y.cancelled = true

namespace Inert

variable (x : Elector) (term : Nat)

theorem refl : Inert x x := ⟨rfl, rfl, id⟩

theorem setKeepAlive (k : KeepAlive) : Inert x (x.setKeepAlive term k) := ⟨rfl, rfl, id⟩

theorem sendRenewal : Inert x (x.sendRenewal term) := ⟨rfl, rfl, id⟩

theorem renewalExecuted (res : Int) : Inert x (x.renewalExecuted term res) := ⟨rfl, rfl, id⟩

theorem stepDown : Inert x (x.stepDown term) :=
  ⟨rfl, rfl, fun h ↦ by simp [Elector.stepDown, h]⟩

theorem renewalAnswered : Inert x (x.renewalAnswered term) := by
  rw [Elector.renewalAnswered]
  split
  · split
    · exact stepDown x term
    · exact setKeepAlive x term .waiting
  · exact refl x

end Inert

end Elector

/-! ## What an event does to an elector -/

/-- How the elector `j` gets from `x` to `y` by the event. -/
inductive Advance (w : Election ι) (ev : Event ι) (j : ι) (x y : Elector) : Prop
  /-- The event is about another elector, or does no more than cancel. -/
  | inert : x.Inert y → ev ≠ .expire → ev ≠ .release j → Advance w ev j x y
  | expire : ev = .expire → y = { x with expired := true } → Advance w ev j x y
  | acquire (now : Time) : ev = .tryAcquire j now → w.owner = none → Advance w ev j x y
  | enterLead : ev ≠ .expire → ev ≠ .release j → x.phase = .acquired →
      y = { x with phase := .leading } → Advance w ev j x y
  /-- `lead` has returned, or `cancel` was called after it had. -/
  | leave : ev ≠ .expire → ev ≠ .release j → x.phase ∈ [Phase.leading, .returned] →
      y.phase ∈ [Phase.returned, .releasing] → y.expired = x.expired → Advance w ev j x y
  /-- The term is over, or `Run` is. -/
  | rest : y.phase ∈ [Phase.campaigning, .stopped] → Advance w ev j x y

/-- What holds of one elector after the step of another, and of that one. -/
theorem Election.set_elim {P : Elector → Prop} {i j : ι} {x : Elector}
    (hself : j = i → P x) (hother : P (w.electors j)) : P ((w.set i x).electors j) := by
  by_cases h : j = i
  · subst h
    rw [Election.electors_set_self]
    exact hself rfl
  · rw [Election.electors_set_of_ne w h]
    exact hother

/-- **What becomes of an elector.** -/
theorem advance_next (ttl : Duration) {ev : Event ι} (he : w.Enabled ev) (j : ι) :
    Advance w ev j (w.electors j) ((w.next ttl ev).electors j) := by
  cases ev with
  | tryAcquire i now =>
      refine Election.set_elim (w := { w with key := (setNX i ttl now w.key).2 })
        (fun hij ↦ ?_) (.inert (.refl _) (by simp) (by simp))
      subst hij
      cases ho : w.owner with
      | none => exact .acquire now rfl ho
      | some i =>
          rw [Election.setNX_of_some ho]
          exact .inert (.refl _) (by simp) (by simp)
  | acquireLost i now => exact .inert (.refl _) (by simp) (by simp)
  | enterLead i =>
      refine Election.set_elim (fun hij ↦ ?_) (.inert (.refl _) (by simp) (by simp))
      subst hij
      exact .enterLead (by simp) (by simp) he rfl
  | renew i term =>
      refine Election.set_elim (fun hij ↦ ?_) (.inert (.refl _) (by simp) (by simp))
      subst hij
      exact .inert (.sendRenewal _ term) (by simp) (by simp)
  | executeRenewal i term now =>
      refine Election.set_elim (w := { w with key := (renewScript i ttl now w.key).2 })
        (fun hij ↦ ?_) (.inert (.refl _) (by simp) (by simp))
      subst hij
      exact .inert (.renewalExecuted _ term _) (by simp) (by simp)
  | renewalAnswer i term =>
      refine Election.set_elim (fun hij ↦ ?_) (.inert (.refl _) (by simp) (by simp))
      subst hij
      exact .inert (.renewalAnswered _ term) (by simp) (by simp)
  | renewalError i term =>
      refine Election.set_elim (fun hij ↦ ?_) (.inert (.refl _) (by simp) (by simp))
      subst hij
      exact .inert (.stepDown _ term) (by simp) (by simp)
  | keepAliveDone i term =>
      refine Election.set_elim (fun hij ↦ ?_) (.inert (.refl _) (by simp) (by simp))
      subst hij
      exact .inert (.setKeepAlive _ term _) (by simp) (by simp)
  | leadReturns i =>
      refine Election.set_elim (fun hij ↦ ?_) (.inert (.refl _) (by simp) (by simp))
      subst hij
      exact .leave (by simp) (by simp) (by simp [show _ = Phase.leading from he]) (by simp) rfl
  | cancel i =>
      refine Election.set_elim (fun hij ↦ ?_) (.inert (.refl _) (by simp) (by simp))
      subst hij
      exact .leave (by simp) (by simp) (by simp [show _ = Phase.returned from he]) (by simp) rfl
  | release i =>
      by_cases hij : j = i
      · subst hij
        refine .rest ?_
        rw [Election.next, Election.electors_set_self]
        simp
      · refine .inert ?_ (by simp) (by simpa using Ne.symm hij)
        rw [Election.next, Election.electors_set_of_ne _ hij]
        exact .refl _
  | releaseError i =>
      refine Election.set_elim (fun hij ↦ .rest (by simp)) (.inert (.refl _) (by simp) (by simp))
  | shutdown i =>
      refine Election.set_elim (fun hij ↦ ?_) (.inert (.refl _) (by simp) (by simp))
      subst hij
      exact .inert ⟨rfl, rfl, fun _ ↦ rfl⟩ (by simp) (by simp)
  | stop i =>
      refine Election.set_elim (fun hij ↦ .rest (by simp)) (.inert (.refl _) (by simp) (by simp))
  | expire => exact .expire rfl rfl

/-- Who is live was live before, or acquires the key. -/
theorem live_of_next {ev : Event ι} (he : w.Enabled ev) {j : ι}
    (h : ((w.next ttl ev).electors j).Live) :
    ((w.electors j).Live ∧ ev ≠ .release j) ∨ ∃ now, ev = .tryAcquire j now ∧ w.owner = none := by
  have hnot : ∀ {y : Elector}, y.Live → y.phase ∉ [Phase.returned, .releasing] ∧
      y.phase ∉ [Phase.campaigning, .stopped] := by
    rintro y ⟨hy | hy, -⟩ <;> rw [hy] <;> decide
  cases advance_next ttl he j with
  | inert hx hne hr =>
      refine .inl ⟨⟨hx.phase ▸ h.1, Bool.eq_false_iff.mpr fun hc ↦ ?_⟩, hr⟩
      have hlive := h.2
      rw [hx.cancelled hc] at hlive
      cases hlive
  | expire hev hy =>
      rw [hy] at h
      exact .inl ⟨h, by simp [hev]⟩
  | acquire now hev ho => exact .inr ⟨now, hev, ho⟩
  | enterLead _ hr hx hy =>
      rw [hy] at h
      exact .inl ⟨⟨.inl hx, h.2⟩, hr⟩
  | leave _ _ _ hy _ => exact absurd hy (hnot h).1
  | rest hy => exact absurd hy (hnot h).2

/-- Who holds the key held it before, or acquires it; and the key does not expire. -/
theorem holding_of_next {ev : Event ι} (he : w.Enabled ev) {j : ι}
    (h : ((w.next ttl ev).electors j).Holding) :
    (((w.electors j).Holding ∧ ev ≠ .release j) ∨
      ∃ now, ev = .tryAcquire j now ∧ w.owner = none) ∧ ev ≠ .expire := by
  cases advance_next ttl he j with
  | inert hx hne hr => exact ⟨.inl ⟨⟨hx.phase ▸ h.1, hx.expired ▸ h.2⟩, hr⟩, hne⟩
  | expire hev hy =>
      rw [hy] at h
      cases h.2
  | acquire now hev ho => exact ⟨.inr ⟨now, hev, ho⟩, by simp [hev]⟩
  | enterLead hne hr hx hy =>
      rw [hy] at h
      exact ⟨.inl ⟨⟨by simp [hx], h.2⟩, hr⟩, hne⟩
  | leave hne hr hx hy hexp =>
      refine ⟨.inl ⟨⟨?_, hexp ▸ h.2⟩, hr⟩, hne⟩
      rcases List.mem_pair.mp hx with hx | hx <;> simp [hx]
  | rest hy =>
      have hin := h.1
      rcases List.mem_pair.mp hy with hy | hy <;> rw [hy] at hin <;> simp at hin

/-! ## The owner -/

/-- One step: a property that arises by acquiring the key and ends before it is released marks the
owner. -/
theorem owner_of_next {H : Elector → Prop} {ev : Event ι}
    (hnew : ∀ j, H ((w.next ttl ev).electors j) → (H (w.electors j) ∧ ev ≠ .release j) ∨
      ∃ now, ev = .tryAcquire j now ∧ w.owner = none)
    (hexp : ev = .expire → ∀ j, ¬ H ((w.next ttl ev).electors j))
    (h : ∀ j, H (w.electors j) → w.owner = some j) :
    ∀ j, H ((w.next ttl ev).electors j) → (w.next ttl ev).owner = some j := by
  intro j hj
  rcases Election.owner_next ttl w ev with heq | ⟨i, now, hev, hnone, hi⟩ | ⟨i, hev, hi⟩ | hev
  · rcases hnew j hj with ⟨hold, -⟩ | ⟨now, rfl, hnone⟩
    · rw [heq, h j hold]
    · change ((setNX j ttl now w.key).2).map Lease.owner = some j
      rw [Election.setNX_of_none (Election.owner_eq_none.mp hnone)]
      rfl
  · rcases hnew j hj with ⟨hold, -⟩ | ⟨now', rfl, -⟩
    · rw [h j hold] at hnone
      cases hnone
    · rcases hev with hev | hev
      · obtain ⟨rfl, -⟩ := Event.tryAcquire.inj hev
        exact hi
      · cases hev
  · rcases hnew j hj with ⟨hold, hne⟩ | ⟨now, rfl, -⟩
    · rw [h j hold, Option.some.injEq] at hi
      exact absurd (hi ▸ hev) hne
    · cases hev
  · exact absurd hj (hexp hev j)

/-- In every run, who holds the key owns it. -/
theorem owner_of_holding {K : Election ι → Event ι → Prop}
    (h : (election ι ttl).Reach K .initial w) :
    ∀ i, (w.electors i).Holding → w.owner = some i := by
  refine h.induct (I := fun w ↦ ∀ i, (w.electors i).Holding → w.owner = some i) ?_ ?_
  · rintro i ⟨hphase, -⟩
    simp [Election.initial] at hphase
  · intro w ev ih he _
    exact owner_of_next (fun j hj ↦ (holding_of_next he hj).1)
      (fun hev j hj ↦ (holding_of_next he hj).2 hev) ih

/-- **The lease is never taken away.**  In any run: inside `lead`, and unless the key has expired
since it was acquired for the term, the elector owns the key, and nobody else can acquire it.  A
renewal or a release, however late, leaves a key alone that names somebody else.  And an elector
ceases to be the owner by expiry only, or by its own release, after its `lead` has returned. -/
theorem lease_kept (h : (election ι ttl).Reach (fun _ _ ↦ True) .initial w) :
    (∀ i, (w.electors i).phase = .leading → (w.electors i).expired = false →
      w.owner = some i ∧ ∀ j now, j ≠ i → w.next ttl (.tryAcquire j now) = w) ∧
    (∀ i, w.owner ≠ some i → (w.next ttl (.release i)).key = w.key ∧
      ∀ term now, (w.next ttl (.executeRenewal i term now)).key = w.key) ∧
    ∀ i ev, w.Enabled ev → w.owner = some i → (w.next ttl ev).owner ≠ some i →
      ev = .expire ∨ (ev = .release i ∧ (w.electors i).phase = .releasing) := by
  refine ⟨fun i hlead hexp ↦ ?_, fun i hi ↦ ?_, fun i ev he hi hnext ↦ ?_⟩
  · have howner : w.owner = some i := owner_of_holding h i ⟨by simp [hlead], hexp⟩
    refine ⟨howner, fun j now _ ↦ ?_⟩
    rw [Election.next, Election.setNX_of_some howner]
    exact congrArg (Election.mk w.key) (Function.update_eq_self j w.electors)
  · exact ⟨Election.releaseScript_of_ne hi, fun _ now ↦ Election.renewScript_of_ne hi now⟩
  · rcases Election.owner_next ttl w ev with heq | ⟨_, _, _, hnone, _⟩ | ⟨j, rfl, hj⟩ | hev
    · exact absurd (heq.trans hi) hnext
    · rw [hi] at hnone
      cases hnone
    · obtain rfl : i = j := Option.some.inj (hi.symm.trans hj)
      exact .inr ⟨rfl, he⟩
    · exact .inl hev

/-- A renewal of the first term of `a` is executed in its second term; meanwhile `b` has led. -/
def lateRenewal : List (Event String) :=
  [.tryAcquire "a" 0, .enterLead "a", .renew "a" 1, .leadReturns "a", .cancel "a", .release "a",
    .tryAcquire "b" 1, .enterLead "b", .leadReturns "b", .cancel "b", .release "b",
    .tryAcquire "a" 2, .enterLead "a", .executeRenewal "a" 1 3]

/-- The key of the second term is still that of `a`. -/
theorem lease_kept_lateRenewal :
    (((election String 30).play .initial lateRenewal).electors "a").term = 2 ∧
      ((election String 30).play .initial lateRenewal).owner = some "a" ∧
      ∀ j now, j ≠ "a" → ((election String 30).play .initial lateRenewal).next 30
        (.tryAcquire j now) = (election String 30).play .initial lateRenewal := by
  have hreach : (election String 30).Reach (fun _ _ ↦ True) .initial
      ((election String 30).play .initial lateRenewal) := Machine.reach_play (by decide)
  exact ⟨by decide, (lease_kept hreach).1 "a" (by decide) (by decide)⟩

/-! ## One leader -/

/-- The key does not expire while its owner is inside `lead`, or about to enter it, with a context
that is not done. -/
def ExpiresUnused (w : Election ι) : Event ι → Prop
  | .expire => ∀ i ∈ w.owner, ¬ (w.electors i).Live
  | _ => True

instance (w : Election ι) : (ev : Event ι) → Decidable (ExpiresUnused w ev)
  | .expire => inferInstanceAs (Decidable (∀ i ∈ w.owner, ¬ (w.electors i).Live))
  | .tryAcquire _ _ | .acquireLost _ _ | .enterLead _ | .renew _ _ | .executeRenewal _ _ _
  | .renewalAnswer _ _ | .renewalError _ _ | .keepAliveDone _ _ | .leadReturns _ | .cancel _
  | .release _ | .releaseError _ | .shutdown _ | .stop _ => inferInstanceAs (Decidable True)

/-- Then who is live owns the key. -/
theorem owner_of_live (h : (election ι ttl).Reach ExpiresUnused .initial w) :
    ∀ i, (w.electors i).Live → w.owner = some i := by
  refine h.induct (I := fun w ↦ ∀ i, (w.electors i).Live → w.owner = some i) ?_ ?_
  · rintro i ⟨hphase, -⟩
    simp [Election.initial] at hphase
  · intro w ev ih he hk
    refine owner_of_next (fun j hj ↦ live_of_next he hj) (fun hev j hj ↦ ?_) ih
    rcases live_of_next he hj with ⟨hlive, -⟩ | ⟨now, hacq, -⟩
    · rw [hev] at hk
      exact hk j (ih j hlive) hlive
    · rw [hev] at hacq
      cases hacq

/-- **At most one leader.**  In every run in which the key does not expire under an elector that
leads or is about to, no two electors are inside `lead` with a context that is not done. -/
theorem one_leader_of_expiresUnused (h : (election ι ttl).Reach ExpiresUnused .initial w) :
    ∀ i j, (w.electors i).Leads → (w.electors j).Leads → i = j := by
  intro i j hi hj
  have h₁ := owner_of_live h i hi.live
  have h₂ := owner_of_live h j hj.live
  rw [h₁] at h₂
  exact Option.some.inj h₂

/-- A renewal of `a` fails, it steps down, and only then does the key expire: `a` is still inside
`lead` when `b` becomes the leader. -/
def handover : List (Event String) :=
  [.tryAcquire "a" 0, .enterLead "a", .renew "a" 1, .renewalError "a" 1, .expire,
    .tryAcquire "b" 40, .enterLead "b"]

/-- The leader afterwards is `b` alone. -/
theorem one_leader_of_expiresUnused_handover :
    (((election String 30).play .initial handover).electors "a").phase = .leading ∧
      (((election String 30).play .initial handover).electors "b").Leads ∧
      ∀ i, (((election String 30).play .initial handover).electors i).Leads → i = "b" := by
  have hb : (((election String 30).play .initial handover).electors "b").Leads := by decide
  refine ⟨by decide, hb, fun i hi ↦ ?_⟩
  exact one_leader_of_expiresUnused (Machine.reach_play (by decide)) i "b" hi hb

/-- **Two leaders.**  The key of `a` expires while `a` leads, `b` acquires it, and `keepAlive` has
not noticed yet. -/
theorem two_leaders :
    ∃ w : Election String, (election String 30).Reach (fun _ _ ↦ True) .initial w ∧
      (w.electors "a").Leads ∧ (w.electors "b").Leads :=
  ⟨(election String 30).play .initial
      [.tryAcquire "a" 0, .enterLead "a", .expire, .tryAcquire "b" 30, .enterLead "b"],
    Machine.reach_play (by decide), by decide, by decide⟩

end GpuScheduler.Redisx
