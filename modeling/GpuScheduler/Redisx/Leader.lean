import GpuScheduler.Lib.Machine
import GpuScheduler.Models.Job
import Mathlib.Logic.Function.Basic

/-!
# Leader election

`internal/redisx/leader.go`.  Every replica of the scheduler runs a `LeaderElector`.  All of them
campaign for one key in Redis, which expires unless its owner renews it, and the one that set it
calls `lead`.  While `lead` runs, a `keepAlive` goroutine renews the lease, and cancels the context
that `lead` was given when it learns that the lease is lost.

An `Election` is the key together with the electors, which are told apart by their identities.
Redis executes each command and each script as a whole, and the key may expire at any moment.  A
renewal is sent, executed and answered at three different moments: its sender may have given up on
it in the meantime, and may even be in another term.  The commands of `tryAcquire` and `release`
are executed, if at all, while their caller waits.
-/

namespace GpuScheduler.Redisx

open Lib Models

variable {ι : Type} [DecidableEq ι]

/-! ## The key -/

/-- What Redis holds under the key: the identity of the owner, and when the key expires. -/
structure Lease (ι : Type) where
  owner : ι
  expiresAt : Time
deriving DecidableEq, Repr

/-- `SET key identity NX PX ttl`, and whether the key was set. -/
def setNX (identity : ι) (ttl : Duration) (now : Time) (key : Option (Lease ι)) :
    Bool × Option (Lease ι) :=
  match key with
  | none => (true, some ⟨identity, now + ttl⟩)
  | some lease => (false, some lease)

/-- Extend the lease only if `identity` still owns it. -/
def renewScript (identity : ι) (ttl : Duration) (now : Time) (key : Option (Lease ι)) :
    Int × Option (Lease ι) :=
  match key with
  | some lease =>
      if lease.owner = identity then (1, some { lease with expiresAt := now + ttl })
      else (0, some lease)
  | none => (0, none)

/-- Release the lock only if `identity` still owns it. -/
def releaseScript (identity : ι) (key : Option (Lease ι)) : Int × Option (Lease ι) :=
  match key with
  | some lease => if lease.owner = identity then (1, none) else (0, some lease)
  | none => (0, none)

/-! ## The electors -/

/-- Where the loop of `Run` is. -/
inductive Phase
  /-- In front of `tryAcquire`, or waiting for the ticker. -/
  | campaigning
  /-- `tryAcquire` has returned true. -/
  | acquired
  /-- Inside `lead`. -/
  | leading
  /-- `lead` has returned. -/
  | returned
  /-- `cancel` has been called after that, `release` comes next. -/
  | releasing
  /-- `Run` has returned. -/
  | stopped
deriving DecidableEq, Repr

/-- Where the `keepAlive` goroutine of a term is. -/
inductive KeepAlive
  /-- Not started, or returned. -/
  | absent
  /-- In its `select`. -/
  | waiting
  /-- Waiting for the answer to a renewal. -/
  | renewing
  /-- The renewal has returned this number. -/
  | answered (res : Int)
deriving DecidableEq, Repr

/-- A `LeaderElector` in the middle of `Run`. -/
structure Elector where
  phase : Phase := .campaigning
  /-- How often the key was acquired, which numbers the terms. -/
  term : Nat := 0
  /-- Whether `leaderCtx` of the current term is done. -/
  cancelled : Bool := false
  /-- Whether the context of `Run` is done. -/
  stopping : Bool := false
  /-- The `keepAlive` goroutines, by term. -/
  keepAlive : Nat → KeepAlive := fun _ ↦ .absent
  /-- The terms with a renewal that Redis has not executed yet. -/
  inFlight : List Nat := []
  /-- Whether the key has expired since it was acquired for the current term.  Nothing in the
  program knows this; it is there to speak about runs. -/
  expired : Bool := false

namespace Elector

/-- A new term begins: `leaderCtx` is made from the context of `Run`, and `keepAlive` started. -/
def acquire (x : Elector) : Elector :=
  { x with
    phase := .acquired
    term := x.term + 1
    cancelled := x.stopping
    keepAlive := Function.update x.keepAlive (x.term + 1) .waiting
    expired := false }

/-- Whether `leaderCtx` of the given term is done; those of earlier terms are. -/
def ctxDone (x : Elector) (term : Nat) : Bool := term < x.term || (term = x.term && x.cancelled)

/-- `keepAlive` of the given term goes on to another place. -/
def setKeepAlive (x : Elector) (term : Nat) (k : KeepAlive) : Elector :=
  { x with keepAlive := Function.update x.keepAlive term k }

/-- `keepAlive` of the given term sends a renewal. -/
def sendRenewal (x : Elector) (term : Nat) : Elector :=
  { x.setKeepAlive term .renewing with inFlight := x.inFlight ++ [term] }

/-- `keepAlive` of the given term cancels its context and returns. -/
def stepDown (x : Elector) (term : Nat) : Elector :=
  { x.setKeepAlive term .absent with cancelled := x.cancelled || term = x.term }

/-- The renewal of the given term has been executed; nobody may be waiting for it any more. -/
def renewalExecuted (x : Elector) (term : Nat) (res : Int) : Elector :=
  { x.setKeepAlive term (if x.keepAlive term = .renewing then .answered res else x.keepAlive term)
    with inFlight := x.inFlight.erase term }

/-- `keepAlive` of the given term looks at the answer to its renewal. -/
def renewalAnswered (x : Elector) (term : Nat) : Elector :=
  match x.keepAlive term with
  | .answered res => if res = 0 then x.stepDown term else x.setKeepAlive term .waiting
  | _ => x

end Elector

/-! ## The election -/

/-- The key and the electors. -/
structure Election (ι : Type) where
  key : Option (Lease ι)
  electors : ι → Elector

/-- What may happen next. -/
inductive Event (ι : Type)
  /-- `tryAcquire`, when the answer of Redis arrives. -/
  | tryAcquire (i : ι) (now : Time)
  /-- `tryAcquire`, when Redis executes the command and its answer is lost. -/
  | acquireLost (i : ι) (now : Time)
  | enterLead (i : ι)
  /-- The ticker of `keepAlive` fires, and it sends a renewal. -/
  | renew (i : ι) (term : Nat)
  /-- Redis executes a renewal. -/
  | executeRenewal (i : ι) (term : Nat) (now : Time)
  /-- `keepAlive` gets the answer to its renewal. -/
  | renewalAnswer (i : ι) (term : Nat)
  /-- `keepAlive` gets an error instead; the renewal may be executed later. -/
  | renewalError (i : ι) (term : Nat)
  /-- `keepAlive` finds its context done. -/
  | keepAliveDone (i : ι) (term : Nat)
  | leadReturns (i : ι)
  /-- `Run` calls `cancel` after `lead` has returned. -/
  | cancel (i : ι)
  | release (i : ι)
  /-- `release` fails, and the script is not executed. -/
  | releaseError (i : ι)
  /-- The context of `Run` is cancelled from outside. -/
  | shutdown (i : ι)
  /-- `Run` finds its context done. -/
  | stop (i : ι)
  /-- The key expires. -/
  | expire

namespace Election

/-- No key, and everybody campaigns. -/
def initial : Election ι := ⟨none, fun _ ↦ {}⟩

/-- The identity that the key names. -/
def owner (w : Election ι) : Option ι := w.key.map Lease.owner

/-- One elector goes on. -/
def set (w : Election ι) (i : ι) (x : Elector) : Election ι :=
  { w with electors := Function.update w.electors i x }

/-- Whether the event can happen. -/
def Enabled (w : Election ι) : Event ι → Prop
  | .tryAcquire i _ | .acquireLost i _ => (w.electors i).phase = .campaigning
  | .enterLead i => (w.electors i).phase = .acquired
  | .renew i term => (w.electors i).keepAlive term = .waiting
  | .executeRenewal i term _ => term ∈ (w.electors i).inFlight
  | .renewalAnswer i term =>
      (w.electors i).keepAlive term ∉ [KeepAlive.absent, .waiting, .renewing]
  | .renewalError i term => (w.electors i).keepAlive term = .renewing
  | .keepAliveDone i term =>
      (w.electors i).keepAlive term = .waiting ∧ (w.electors i).ctxDone term = true
  | .leadReturns i => (w.electors i).phase = .leading
  | .cancel i => (w.electors i).phase = .returned
  | .release i | .releaseError i => (w.electors i).phase = .releasing
  | .shutdown _ => True
  | .stop i => (w.electors i).phase = .campaigning ∧ (w.electors i).stopping = true
  | .expire => w.key ≠ none

instance (w : Election ι) : (ev : Event ι) → Decidable (w.Enabled ev)
  | .tryAcquire _ _ | .acquireLost _ _ | .enterLead _ | .renew _ _ | .renewalError _ _
  | .leadReturns _ | .cancel _ | .release _ | .releaseError _ => inferInstanceAs (Decidable (_ = _))
  | .executeRenewal _ _ _ => inferInstanceAs (Decidable (_ ∈ _))
  | .renewalAnswer _ _ => inferInstanceAs (Decidable (_ ∉ _))
  | .keepAliveDone _ _ | .stop _ => inferInstanceAs (Decidable (_ ∧ _))
  | .shutdown _ => inferInstanceAs (Decidable True)
  | .expire => inferInstanceAs (Decidable (_ ≠ _))

/-- What the event does. -/
def next (ttl : Duration) (w : Election ι) : Event ι → Election ι
  | .tryAcquire i now =>
      let r := setNX i ttl now w.key
      { w with key := r.2 }.set i (if r.1 then (w.electors i).acquire else w.electors i)
  | .acquireLost i now => { w with key := (setNX i ttl now w.key).2 }
  | .enterLead i => w.set i { w.electors i with phase := .leading }
  | .renew i term => w.set i ((w.electors i).sendRenewal term)
  | .executeRenewal i term now =>
      let r := renewScript i ttl now w.key
      { w with key := r.2 }.set i ((w.electors i).renewalExecuted term r.1)
  | .renewalAnswer i term => w.set i ((w.electors i).renewalAnswered term)
  | .renewalError i term => w.set i ((w.electors i).stepDown term)
  | .keepAliveDone i term => w.set i ((w.electors i).setKeepAlive term .absent)
  | .leadReturns i => w.set i { w.electors i with phase := .returned }
  | .cancel i => w.set i { w.electors i with phase := .releasing, cancelled := true }
  | .release i =>
      { w with key := (releaseScript i w.key).2 }.set i
        { w.electors i with phase := .campaigning }
  | .releaseError i => w.set i { w.electors i with phase := .campaigning }
  | .shutdown i => w.set i { w.electors i with stopping := true, cancelled := true }
  | .stop i => w.set i { w.electors i with phase := .stopped }
  | .expire => ⟨none, fun i ↦ { w.electors i with expired := true }⟩

end Election

/-- The electors as a machine. -/
def election (ι : Type) [DecidableEq ι] (ttl : Duration) : Machine (Election ι) (Event ι) where
  Enabled := Election.Enabled
  next := Election.next ttl

instance (ttl : Duration) (w : Election ι) (ev : Event ι) :
    Decidable ((election ι ttl).Enabled w ev) := inferInstanceAs (Decidable (w.Enabled ev))

/-! ## What an event does to the key -/

namespace Election

variable {ttl : Duration} {w : Election ι} {i : ι}

@[simp] theorem electors_set_self (w : Election ι) (i : ι) (x : Elector) :
    (w.set i x).electors i = x := Function.update_self ..

theorem electors_set_of_ne (w : Election ι) {i j : ι} (h : j ≠ i) (x : Elector) :
    (w.set i x).electors j = w.electors j := Function.update_of_ne h ..

theorem renewScript_of_ne (h : w.owner ≠ some i) (now : Time) :
    (renewScript i ttl now w.key).2 = w.key := by
  cases hk : w.key with
  | none => rfl
  | some lease =>
      have hne : lease.owner ≠ i := by
        intro heq
        exact h (by rw [owner, hk, Option.map_some, heq])
      rw [renewScript, if_neg hne]

theorem releaseScript_of_ne (h : w.owner ≠ some i) : (releaseScript i w.key).2 = w.key := by
  cases hk : w.key with
  | none => rfl
  | some lease =>
      have hne : lease.owner ≠ i := by
        intro heq
        exact h (by rw [owner, hk, Option.map_some, heq])
      rw [releaseScript, if_neg hne]

/-- A renewal changes the owner of no key. -/
theorem owner_renewScript (i : ι) (now : Time) :
    ((renewScript i ttl now w.key).2).map Lease.owner = w.owner := by
  rw [owner]
  cases hk : w.key with
  | none => rfl
  | some lease =>
      rw [renewScript]
      split <;> rfl

omit [DecidableEq ι] in
/-- The key is set when there is none. -/
theorem setNX_of_none (h : w.key = none) (now : Time) :
    setNX i ttl now w.key = (true, some ⟨i, now + ttl⟩) := by
  rw [h, setNX]

omit [DecidableEq ι] in
/-- It is left alone otherwise. -/
theorem setNX_of_some {j : ι} (h : w.owner = some j) (now : Time) :
    setNX i ttl now w.key = (false, w.key) := by
  obtain ⟨lease, hk, -⟩ := Option.map_eq_some_iff.mp h
  rw [hk, setNX]

omit [DecidableEq ι] in
theorem owner_eq_none : w.owner = none ↔ w.key = none := Option.map_eq_none_iff

/-- **What becomes of the owner.**  Nothing, unless the key is set where there was none, its owner
releases it, or it expires. -/
theorem owner_next (ttl : Duration) (w : Election ι) (ev : Event ι) :
    (w.next ttl ev).owner = w.owner ∨
      (∃ i now, (ev = .tryAcquire i now ∨ ev = .acquireLost i now) ∧ w.owner = none ∧
        (w.next ttl ev).owner = some i) ∨
      (∃ i, ev = .release i ∧ w.owner = some i) ∨ ev = .expire := by
  have hset : ∀ i now, ((setNX i ttl now w.key).2).map Lease.owner = w.owner ∨
      (w.owner = none ∧ ((setNX i ttl now w.key).2).map Lease.owner = some i) := by
    intro i now
    cases ho : w.owner with
    | none =>
        rw [setNX_of_none (owner_eq_none.mp ho)]
        exact .inr ⟨rfl, rfl⟩
    | some j =>
        rw [setNX_of_some ho]
        exact .inl ho
  cases ev with
  | tryAcquire i now =>
      rcases hset i now with h | ⟨hnone, h⟩
      · exact .inl h
      · exact .inr (.inl ⟨i, now, .inl rfl, hnone, h⟩)
  | acquireLost i now =>
      rcases hset i now with h | ⟨hnone, h⟩
      · exact .inl h
      · exact .inr (.inl ⟨i, now, .inr rfl, hnone, h⟩)
  | executeRenewal i term now => exact .inl (owner_renewScript i now)
  | release i =>
      by_cases hi : w.owner = some i
      · exact .inr (.inr (.inl ⟨i, rfl, hi⟩))
      · refine .inl ?_
        change ((releaseScript i w.key).2).map Lease.owner = w.owner
        rw [releaseScript_of_ne hi, owner]
  | expire => exact .inr (.inr (.inr rfl))
  | enterLead _ | renew _ _ | renewalAnswer _ _ | renewalError _ _ | keepAliveDone _ _
  | leadReturns _ | cancel _ | releaseError _ | shutdown _ | stop _ => exact .inl rfl

end Election

end GpuScheduler.Redisx
