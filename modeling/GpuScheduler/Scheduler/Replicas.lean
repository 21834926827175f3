import GpuScheduler.Lib.Journal
import GpuScheduler.Redisx.Election
import GpuScheduler.Scheduler.Engine

/-!
# Several replicas of the scheduler

`cmd/scheduler` runs `elector.Run(ctx, engine.Run)` in every replica: `Engine.Run` makes one pass
after the other while the replica leads, and returns between two passes once the context of its term
is done.  A pass that is in progress then goes on, and its calls fail, with one exception:
`teamShares` reads the usage of the teams under a context of its own, `context.Background()`.  So
the pass of a replica that leads no more may still get this read through, in the middle of the pass
of another.

`Replicated` puts the election and the engines together.  Everything that others do to the store is
there too, as calls from outside.  As long as the key does not expire under a leader, such reads are
all that comes in between (`passes_do_not_overlap`): between two calls of a pass that got through
there is none of another pass.  Nothing that follows a late read in its own pass gets through.
-/

namespace GpuScheduler.Scheduler

open Lib Models Redisx

variable {ι : Type} [DecidableEq ι]

/-! ## The system -/

/-- The replicas and the store. -/
structure Replicated (ι : Type) where
  election : Election ι
  /-- The passes in progress. -/
  passes : ι → Option (Prog Call Call.Ret Mem Unit)
  /-- How many passes each replica has begun, which numbers them. -/
  begun : ι → Nat
  store : Store
  /-- The calls of passes that got through, in their order, with the replica and the number of the
  pass.  Nothing in the program knows this. -/
  log : List ((ι × Nat) × Call)

/-- Whether the call is made under a context of its own, which is never done. -/
def Detached (c : Call) : Prop := c = .jobsTeamGPUUsage

instance (c : Call) : Decidable (Detached c) := inferInstanceAs (Decidable (c = .jobsTeamGPUUsage))

/-- What may happen next. -/
inductive ReplicaEvent (ι : Type)
  | election (ev : Redisx.Event ι)
  /-- The ticker of `Engine.Run` fires. -/
  | tick (i : ι) (e : Engine) (clock : Clock)
  /-- The call that the pass of a replica has in flight is executed. -/
  | call (i : ι) (env : Env)
  | tickReturns (i : ι)
  /-- Somebody else's call is executed. -/
  | outside (c : Call) (env : Env)

namespace Replicated

def initial (s : Store) : Replicated ι := ⟨.initial, fun _ ↦ none, fun _ ↦ 0, s, []⟩

/-- The replica is in the middle of a pass. -/
def Passing (w : Replicated ι) (i : ι) : Prop := (w.passes i).isSome = true

/-- The call that the pass of the replica has in flight. -/
def inFlight (w : Replicated ι) (i : ι) : Option Call := (w.passes i).bind Prog.inFlight

/-- `Engine.Run` returns between two passes, when its context is done. -/
def mayReturn (w : Replicated ι) : Redisx.Event ι → Bool
  | .leadReturns i => !(w.passes i).isSome && (w.election.electors i).cancelled
  | _ => true

/-- Whether the event can happen.  A call whose context is done fails, and does nothing. -/
def Enabled (w : Replicated ι) : ReplicaEvent ι → Prop
  | .election ev => w.election.Enabled ev ∧ w.mayReturn ev = true
  | .tick i _ _ => (w.election.electors i).phase = .leading ∧ (w.passes i).isSome = false
  | .call i env => ∃ c ∈ w.inFlight i,
      (w.election.electors i).cancelled = true → ¬ Detached c → env.fails = true
  | .tickReturns i => ((w.passes i).map Prog.isOver) = some true
  | .outside _ _ => True

/-- What the event does. -/
def next (ttl : Duration) (w : Replicated ι) : ReplicaEvent ι → Replicated ι
  | .election ev => { w with election := w.election.next ttl ev }
  | .tick i e clock =>
      { w with
        passes := Function.update w.passes i (some ((e.tick clock).thread default))
        begun := Function.update w.begun i (w.begun i + 1) }
  | .call i env => match w.passes i with
    | some (.call _ c k) =>
        { w with
          passes := Function.update w.passes i (some (k (Store.exec c env w.store).1))
          store := (Store.exec c env w.store).2
          log := if (Store.exec c env w.store).1.isOk then w.log ++ [((i, w.begun i), c)]
            else w.log }
    | _ => w
  | .tickReturns i => { w with passes := Function.update w.passes i none }
  | .outside c env => { w with store := (Store.exec c env w.store).2 }

end Replicated

/-- The replicas as a machine. -/
def replicas (ι : Type) [DecidableEq ι] (ttl : Duration) :
    Machine (Replicated ι) (ReplicaEvent ι) where
  Enabled := Replicated.Enabled
  next := Replicated.next ttl

instance (w : Replicated ι) : (ev : ReplicaEvent ι) → Decidable (w.Enabled ev)
  | .election _ | .tick _ _ _ => inferInstanceAs (Decidable (_ ∧ _))
  | .call i _ => inferInstanceAs (Decidable (∃ c ∈ w.inFlight i, _))
  | .tickReturns _ => inferInstanceAs (Decidable (_ = _))
  | .outside _ _ => inferInstanceAs (Decidable True)

/-- The key does not expire under a leader. -/
def LeaseKept (w : Replicated ι) : ReplicaEvent ι → Prop
  | .election ev => ExpiresUnused w.election ev
  | _ => True

instance (w : Replicated ι) : (ev : ReplicaEvent ι) → Decidable (LeaseKept w ev)
  | .election ev => inferInstanceAs (Decidable (ExpiresUnused w.election ev))
  | .tick _ _ _ | .call _ _ | .tickReturns _ | .outside _ _ => inferInstanceAs (Decidable True)

instance (ttl : Duration) (w : Replicated ι) (ev : ReplicaEvent ι) :
    Decidable ((replicas ι ttl).Enabled w ev) := inferInstanceAs (Decidable (w.Enabled ev))

/-! ## The election inside -/

namespace Replicated

variable {ttl : Duration} {w : Replicated ι} {i : ι}

/-- The election does not notice the passes. -/
theorem reach_election {s : Store} {w : Replicated ι}
    (h : (replicas ι ttl).Reach LeaseKept (initial s) w) :
    (Redisx.election ι ttl).Reach ExpiresUnused .initial w.election := by
  refine h.project (f := Replicated.election) (N := Redisx.election ι ttl) (L := ExpiresUnused) ?_
  intro w ev he hk
  cases ev with
  | election ev => exact .inr ⟨ev, he.1, hk, rfl⟩
  | call i env =>
      refine .inl ?_
      simp only [replicas, next]
      split <;> rfl
  | tick _ _ _ | tickReturns _ | outside _ _ => exact .inl rfl

/-- A replica that leads goes on leading until `lead` returns. -/
theorem leading_next {w : Election ι} {ev : Redisx.Event ι} (he : w.Enabled ev)
    (h : (w.electors i).phase = .leading) (hev : ev ≠ .leadReturns i) :
    ((w.next ttl ev).electors i).phase = .leading := by
  -- in another phase, it is another elector
  have hother : ∀ {p : Phase} {j : ι}, (w.electors j).phase = p → p ≠ .leading → i ≠ j := by
    rintro p j hj hp rfl
    exact hp (hj.symm.trans h)
  cases ev with
  | tryAcquire j now =>
      refine Election.set_elim (P := fun x ↦ x.phase = .leading)
        (w := { w with key := (setNX j ttl now w.key).2 }) (fun hij ↦ ?_) h
      exact absurd hij (hother he (by decide))
  | acquireLost j now => exact h
  | enterLead j => exact Election.set_elim (P := fun x ↦ x.phase = .leading) (fun _ ↦ rfl) h
  | renew j term | renewalError j term | keepAliveDone j term | shutdown j =>
      refine Election.set_elim (P := fun x ↦ x.phase = .leading) (fun hij ↦ ?_) h
      subst hij
      exact h
  | executeRenewal j term now =>
      refine Election.set_elim (P := fun x ↦ x.phase = .leading)
        (w := { w with key := (renewScript j ttl now w.key).2 }) (fun hij ↦ ?_) h
      subst hij
      exact h
  | renewalAnswer j term =>
      refine Election.set_elim (P := fun x ↦ x.phase = .leading) (fun hij ↦ ?_) h
      subst hij
      exact (Elector.Inert.renewalAnswered _ term).phase.trans h
  | leadReturns j =>
      refine Election.set_elim (P := fun x ↦ x.phase = .leading) (fun hij ↦ ?_) h
      exact absurd (congrArg Event.leadReturns hij.symm) hev
  | cancel j | releaseError j =>
      refine Election.set_elim (P := fun x ↦ x.phase = .leading) (fun hij ↦ ?_) h
      exact absurd hij (hother he (by decide))
  | release j =>
      refine Election.set_elim (P := fun x ↦ x.phase = .leading)
        (w := { w with key := (releaseScript j w.key).2 }) (fun hij ↦ ?_) h
      exact absurd hij (hother he (by decide))
  | stop j =>
      refine Election.set_elim (P := fun x ↦ x.phase = .leading) (fun hij ↦ ?_) h
      exact absurd hij (hother he.1 (by decide))
  | expire => exact h

/-! ## The passes -/

section Fields

variable {e : Engine} {clock : Clock} {j : ι}

theorem begun_tick_self : (w.next ttl (.tick i e clock)).begun i = w.begun i + 1 :=
  Function.update_self ..

theorem begun_tick_of_ne (h : j ≠ i) : (w.next ttl (.tick i e clock)).begun j = w.begun j :=
  Function.update_of_ne h ..

theorem passing_tick_of_ne (h : j ≠ i) :
    (w.next ttl (.tick i e clock)).Passing j ↔ w.Passing j := by
  have hpasses : (w.next ttl (.tick i e clock)).passes j = w.passes j := Function.update_of_ne h ..
  rw [Passing, Passing, hpasses]

/-- Who is in the middle of a pass after one of them is over was so before. -/
theorem Passing.of_tickReturns (h : (w.next ttl (.tickReturns i)).Passing j) : w.Passing j := by
  by_cases hij : j = i
  · subst hij
    have hpasses : (w.next ttl (.tickReturns j)).passes j = none := Function.update_self ..
    rw [Passing, hpasses] at h
    cases h
  · have hpasses : (w.next ttl (.tickReturns i)).passes j = w.passes j :=
      Function.update_of_ne hij ..
    rwa [Passing, hpasses] at h

end Fields

/-- What holds of the passes and their calls. -/
structure Orderly (w : Replicated ι) : Prop where
  leading : ∀ i, w.Passing i → (w.election.electors i).phase = .leading
  numbered : ∀ x ∈ w.log, x.1.2 ≤ w.begun x.1.1
  together : Contiguous Prod.fst (fun x ↦ Detached x.2) w.log
  /-- Since the first call of the leader's pass nobody else got one through. -/
  last : ∀ i, w.Passing i → (w.election.electors i).Live →
    EndsWith Prod.fst (fun x ↦ Detached x.2) (i, w.begun i) w.log

omit [DecidableEq ι] in
theorem Orderly.initial (s : Store) : (initial s : Replicated ι).Orderly where
  leading _ h := by cases h
  numbered _ h := absurd h List.not_mem_nil
  together := .nil
  last _ h := by cases h

/-- An event of the election. -/
theorem Orderly.election (h : w.Orderly) {ev : Redisx.Event ι} (he : w.Enabled (.election ev)) :
    (w.next ttl (.election ev)).Orderly where
  leading i hi := by
    refine leading_next he.1 (h.leading i hi) ?_
    rintro rfl
    have hpassing : (w.passes i).isSome = true := hi
    have hreturn := he.2
    rw [mayReturn, hpassing] at hreturn
    cases hreturn
  numbered := h.numbered
  together := h.together
  last i hi hlive := by
    rcases live_of_next he.1 hlive with ⟨hlive, -⟩ | ⟨now, rfl, -⟩
    · exact h.last i hi hlive
    · -- who campaigns is not in the middle of a pass
      have hphase : (w.election.electors i).phase = .campaigning := he.1
      rw [h.leading i hi] at hphase
      cases hphase

/-- A pass begins. -/
theorem Orderly.tick (h : w.Orderly) {e : Engine} {clock : Clock}
    (he : w.Enabled (.tick i e clock)) : (w.next ttl (.tick i e clock)).Orderly where
  leading j hj := by
    by_cases hij : j = i
    · subst hij
      exact he.1
    · exact h.leading j ((passing_tick_of_ne hij).mp hj)
  numbered x hx := by
    have hle := h.numbered x hx
    by_cases hij : x.1.1 = i
    · rw [hij] at hle ⊢
      rw [begun_tick_self]
      exact hle.trans (Nat.le_succ _)
    · rwa [begun_tick_of_ne hij]
  together := h.together
  last j hj hlive := by
    by_cases hij : j = i
    · -- no call has got through yet
      subst hij
      rw [begun_tick_self]
      refine EndsWith.of_forall_ne fun x hx heq ↦ ?_
      have hle := h.numbered x hx
      rw [heq] at hle
      exact Nat.not_succ_le_self _ hle
    · rw [begun_tick_of_ne hij]
      exact h.last j ((passing_tick_of_ne hij).mp hj) hlive

/-- A pass is over. -/
theorem Orderly.tickReturns (h : w.Orderly) (i : ι) :
    (w.next ttl (.tickReturns i)).Orderly :=
  ⟨fun j hj ↦ h.leading j hj.of_tickReturns, h.numbered, h.together,
    fun j hj ↦ h.last j hj.of_tickReturns⟩

omit [DecidableEq ι] in
/-- Who has a call in flight is in the middle of a pass. -/
theorem Passing.of_enabled_call {env : Env} (he : w.Enabled (.call i env)) : w.Passing i := by
  obtain ⟨c, hc, -⟩ := he
  obtain ⟨p, hp, -⟩ := Option.bind_eq_some_iff.mp hc
  rw [Passing, hp]
  rfl

/-- What a call of a pass can do: nothing gets through, or a call is written down, and then the
context is not done or the call does not depend on it. -/
theorem call_cases (ttl : Duration) {env : Env} (he : w.Enabled (.call i env)) :
    (w.next ttl (.call i env)).election = w.election ∧
    (w.next ttl (.call i env)).begun = w.begun ∧
    (∀ j, (w.next ttl (.call i env)).Passing j → w.Passing j) ∧
    ((w.next ttl (.call i env)).log = w.log ∨ ∃ c,
      (Detached c ∨ (w.election.electors i).cancelled = false) ∧
      (w.next ttl (.call i env)).log = w.log ++ [((i, w.begun i), c)]) := by
  have hpassing := Passing.of_enabled_call he
  obtain ⟨c, hc, hfails⟩ := he
  rw [next]
  split
  · rename_i m c' k hpass
    obtain rfl : c' = c := by
      rw [inFlight, hpass] at hc
      exact Option.some.inj hc
    refine ⟨rfl, rfl, fun j hj ↦ ?_, ?_⟩
    · by_cases hij : j = i
      · subst hij
        exact hpassing
      · have hpasses : Function.update w.passes i (some (k (Store.exec c' env w.store).1)) j =
            w.passes j := Function.update_of_ne hij ..
        rw [Passing, ← hpasses]
        exact hj
    · cases hok : (Store.exec c' env w.store).1.isOk with
      | false => exact .inl rfl
      | true =>
          refine .inr ⟨c', or_iff_not_imp_left.mpr fun hdetached ↦ ?_, rfl⟩
          refine Bool.eq_false_iff.mpr fun hcancel ↦ ?_
          rw [Store.exec_of_fails (hfails hcancel hdetached)] at hok
          cases hok
  · exact ⟨rfl, rfl, fun _ ↦ id, .inl rfl⟩

/-- A call of a pass, while there is at most one leader. -/
theorem Orderly.call (h : w.Orderly)
    (hone : ∀ i j, (w.election.electors i).Live → (w.election.electors j).Live → i = j)
    {env : Env} (he : w.Enabled (.call i env)) : (w.next ttl (.call i env)).Orderly := by
  have hpassing := Passing.of_enabled_call he
  obtain ⟨helection, hbegun, hpasses, hlog⟩ := call_cases ttl he
  have hleading : ∀ j, (w.next ttl (.call i env)).Passing j →
      ((w.next ttl (.call i env)).election.electors j).phase = .leading := by
    intro j hj
    rw [helection]
    exact h.leading j (hpasses j hj)
  rcases hlog with hlog | ⟨c, hcontext, hlog⟩
  · refine ⟨hleading, ?_, ?_, fun j hj ↦ ?_⟩
    · rw [hlog, hbegun]
      exact h.numbered
    · rw [hlog]
      exact h.together
    · rw [helection, hlog, hbegun]
      exact h.last j (hpasses j hj)
  · -- a call that depends on its context is one of the leader
    have hlive : Detached c ∨ (w.election.electors i).Live :=
      hcontext.imp_right fun hcancel ↦ ⟨.inr (h.leading i hpassing), hcancel⟩
    refine ⟨hleading, fun x hx ↦ ?_, ?_, fun j hj hjlive ↦ ?_⟩
    · rw [hlog] at hx
      rw [hbegun]
      rcases List.mem_append.mp hx with hx | hx
      · exact h.numbered x hx
      · rw [List.mem_singleton.mp hx]
    · rw [hlog]
      exact h.together.concat (hlive.imp_right (h.last i hpassing))
    · rw [helection] at hjlive
      rw [hlog, hbegun]
      refine (h.last j (hpasses j hj) hjlive).concat ?_
      rcases hlive with hdetached | hlive
      · exact .inr hdetached
      · obtain rfl := hone j i hjlive hlive
        exact .inl rfl

/-- Any event, while there is at most one leader. -/
theorem Orderly.next (h : w.Orderly)
    (hone : ∀ i j, (w.election.electors i).Live → (w.election.electors j).Live → i = j)
    {ev : ReplicaEvent ι} (he : w.Enabled ev) : (w.next ttl ev).Orderly := by
  cases ev with
  | election ev => exact h.election he
  | tick i e clock => exact h.tick he
  | call i env => exact h.call hone he
  | tickReturns i => exact h.tickReturns i
  | outside c env => exact ⟨h.leading, h.numbered, h.together, h.last⟩

end Replicated

/-- **Passes do not overlap.**  In every run of any number of replicas, with any calls from outside
in between, in which the key does not expire under an elector that leads or is about to: between two
calls of a pass that got through, the later of which is not `TeamGPUUsage`, there is none of another
pass, of the same replica or of another one, except for `TeamGPUUsage`. -/
theorem passes_do_not_overlap {ttl : Duration} {s : Store} {w : Replicated ι}
    (h : (replicas ι ttl).Reach LeaseKept (.initial s) w) {before between after}
    {x z : (ι × Nat) × Call} (hlog : w.log = before ++ x :: (between ++ z :: after))
    (hxz : x.1 = z.1) (hz : z.2 ≠ .jobsTeamGPUUsage) :
    ∀ y ∈ between, y.1 = x.1 ∨ y.2 = .jobsTeamGPUUsage := by
  have horderly : w.Orderly := by
    refine Machine.Reach.induct_reach (I := Replicated.Orderly) h (.initial s) ?_
    intro u ev hu horderly he _
    have hreach := Replicated.reach_election hu
    refine horderly.next (fun i j hi hj ↦ ?_) he
    exact Option.some.inj ((owner_of_live hreach i hi).symm.trans (owner_of_live hreach j hj))
  exact horderly.together before x between z after hlog hxz hz

namespace Replicas

/-- Two replicas: the first makes a pass, and in the middle of its second one it is told that its
renewal failed; the key expires and the second replica begins a pass, amid which the first gets its
last read through. -/
def events : List (ReplicaEvent Bool) :=
  .flatten [[.election (.tryAcquire false 0), .election (.enterLead false),
      .tick false (Small.engine .firstFit false) ⟨1, 1⟩],
    List.replicate 6 (.call false ⟨false, 1⟩),
    [.outside (.nodesHeartbeat "n") ⟨false, 1⟩, .election (.tryAcquire true 1)],
    List.replicate 2 (.call false ⟨false, 1⟩),
    [.tickReturns false, .outside (.jobsCreate (Small.job "b" .queued 5 1 "" 2)) ⟨false, 2⟩,
      .tick false (Small.engine .firstFit false) ⟨2, 2⟩],
    List.replicate 4 (.call false ⟨false, 2⟩),
    [.election (.renew false 1), .election (.renewalError false 1), .election .expire,
      .election (.tryAcquire true 31), .election (.enterLead true),
      .tick true (Small.engine .firstFit false) ⟨31, 31⟩, .call true ⟨false, 31⟩,
      .call false ⟨false, 31⟩, .call true ⟨false, 31⟩, .call false ⟨true, 31⟩]]

/-- A node, and a job that waits. -/
def cluster : Store :=
  Small.store [Small.job "a" .queued 5 1 "" 1] [Small.node "n" .ready 1 1]

def after : Replicated Bool := (replicas Bool 30).play (.initial cluster) events

end Replicas

/-- Of the first pass all calls get through, of the second one those up to its read of the usage,
and that one while the other replica is in the middle of its pass. -/
theorem passes_do_not_overlap_small :
    Replicas.after.log.map Prod.fst =
        List.replicate 8 (false, 1) ++ List.replicate 4 (false, 2) ++
          [(true, 1), (false, 2), (true, 1)] ∧
      ∀ before between after x z, Replicas.after.log = before ++ x :: (between ++ z :: after) →
        x.1 = z.1 → z.2 ≠ .jobsTeamGPUUsage → ∀ y ∈ between, y.1 = x.1 ∨
          y.2 = .jobsTeamGPUUsage := by
  have hfollows : (replicas Bool 30).Follows LeaseKept (.initial Replicas.cluster)
      Replicas.events := by decide +kernel
  have hreach : (replicas Bool 30).Reach LeaseKept (.initial Replicas.cluster) Replicas.after :=
    Machine.reach_play hfollows
  exact ⟨by decide +kernel, fun _ _ _ _ _ ↦ passes_do_not_overlap hreach⟩

end GpuScheduler.Scheduler
