import GpuScheduler.Agent.Ledger
import GpuScheduler.Concurrent.OperationSpec
import GpuScheduler.Scheduler.PassSpec

/-!
# One start for each placement

What keeps an agent from executing one placement twice is split in two.  While it executes a job it
does not claim it again, and `GetAssignments` does not list a job that was reported running.  The
claim is cleared when `execute` returns, whether or not its reports were served, and whatever answer
is on its way.

`started_once_of_settled` says that no placement is started twice when `execute` returns only after
its placement can no longer be picked up.
-/

namespace GpuScheduler

open Lib Models Scheduler

namespace Ledger

/-- The placement can still be picked up: the control plane lists it, or an answer does that the
agent has not gone through. -/
def Open (l : Ledger) (p : Placement) : Prop :=
  (Lists l.store p.nodeID p.jobID ∧ l.placements p.nodeID p.jobID = p.number) ∨
    ((p.nodeID, p.jobID) ∈ l.assigned ∧ l.polled p.nodeID p.jobID = p.number)

instance (l : Ledger) (p : Placement) : Decidable (l.Open p) := inferInstanceAs (Decidable (_ ∨ _))

/-- The placements that the claim was made for can no longer be picked up. -/
def Over (l : Ledger) (x : Claim) : Prop :=
  ∀ p ∈ l.starts, p.nodeID = x.nodeID → p.jobID = x.jobID → ¬ l.Open p

instance (l : Ledger) (x : Claim) : Decidable (l.Over x) :=
  inferInstanceAs (Decidable (∀ p ∈ l.starts, _))

end Ledger

/-- A claim is cleared only when its placement can no longer be picked up. -/
def Settled (l : Ledger) : Move → Prop
  | .done x => l.Over x
  | _ => True

instance (l : Ledger) : (mv : Move) → Decidable (Settled l mv)
  | .done x => inferInstanceAs (Decidable (l.Over x))
  | .begin _ | .serve _ | .turn _ _ | .poll _ _ | .claim _ _ | .start _ | .finish _ _ =>
      .isTrue trivial

/-! ## The calls of the control plane -/

/-- The call makes no job *scheduled*, unless it is `Schedule`. -/
def Unscheduling : Call → Prop
  | .jobsCreate j => j.status ≠ .scheduled
  | .jobsUpdateStatus _ st | .jobsRequeue _ st => st ≠ .scheduled
  | _ => True

theorem Operation.MayIssue.unscheduling {op : Operation} {c : Call} (h : op.MayIssue c) :
    Unscheduling c := by
  cases op with
  | tick _ _ | report _ | cancel _ => exact h.elim
  | submit req newID now retries =>
      rw [h.2]
      exact fun hst ↦ by cases hst
  | register _ | assignments _ | markStaleDown _ =>
      obtain rfl := h
      trivial
  | heartbeat _ | cordon _ | drain _ | uncordon _ => rcases h with rfl | rfl <;> trivial

/-- Only `Schedule` makes a job *scheduled*. -/
theorem Operation.issues_unscheduling (op : Operation) :
    op.thread.Issues fun _ c ↦ Unscheduling c := by
  have hrequest : ∀ c, OfRequest c → Unscheduling c := by
    intro c hc
    cases c with
    | jobsUpdateStatus id st =>
        rintro rfl
        simp [OfRequest] at hc
    | jobsRequeue id st => exact hc.elim
    | jobsCreate j => exact hc.elim
    | _ => trivial
  rcases op.issues with h | ⟨e, clock, rfl⟩ | ⟨req, rfl⟩ | ⟨id, rfl⟩
  · exact h.mono fun _ _ hc ↦ hc.2.unscheduling
  · refine ((e.issues_tick clock).mono fun c hc ↦ ?_).thread default
    cases c with
    | jobsUpdateStatus _ st | jobsRequeue _ st =>
        rcases hc with rfl | rfl <;> exact fun hst ↦ by cases hst
    | jobsCreate _ => rcases hc with hc | hc <;> exact hc.elim
    | _ => trivial
  · exact ((Grpc.issues_updateJobStatus req).mono hrequest).thread default
  · exact ((Api.issues_handleCancelJob id).mono hrequest).thread default

namespace Ledger

variable {s : Store} {c : Call} {env : Env} {g : Tally} {n id : String}

/-- A row that is *scheduled* after such a call is as it was, or the call is `Schedule`. -/
theorem onJob_scheduled (hc : Unscheduling c) {now : Time} {j : Job}
    (h : (c.onJob now j).status = .scheduled) :
    c.onJob now j = j ∨ c = .jobsSchedule (c.onJob now j).jobID (c.onJob now j).nodeID := by
  cases c with
  | jobsUpdateStatus id st | jobsRequeue id st =>
      simp only [Call.onJob] at h ⊢
      split at h
      · exact absurd h hc
      · rename_i hid
        exact .inl (if_neg hid)
  | jobsSchedule id nodeID =>
      simp only [Call.onJob]
      split
      · rename_i hid
        exact .inr (by rw [← hid]; rfl)
      · exact .inl rfl
  | _ => exact .inl rfl

/-- A job that is listed after a call was listed before, or has been placed once more. -/
theorem lists_exec (hc : Unscheduling c) (h : Lists (Store.exec c env s).2 n id) :
    Lists s n id ∨ g n id < g.count c env n id := by
  obtain ⟨j', hj', rfl, rfl, hst⟩ := h
  cases hf : env.fails with
  | true =>
      rw [Store.exec_of_fails hf] at hj'
      exact .inl ⟨j', hj', rfl, rfl, hst⟩
  | false =>
      refine Store.forall_jobs_exec (P := fun j' ↦ j'.status = .scheduled →
          Lists s j'.nodeID j'.jobID ∨ g j'.nodeID j'.jobID < g.count c env j'.nodeID j'.jobID)
        (fun j hj hst ↦ .inl ⟨j, hj, rfl, rfl, hst⟩) (fun j hj hst ↦ ?_)
        (fun j hcr hst ↦ ?_) j' hj' hst
      · rcases onJob_scheduled hc hst with hsame | hsched
        · rw [hsame] at hst ⊢
          exact .inl ⟨j, hj, rfl, rfl, hst⟩
        · exact .inr (lt_count hsched hf)
      · rw [hcr] at hc
        exact absurd hst hc

/-! ## The invariant -/

/-- What holds of the account in every run. -/
structure Sound (l : Ledger) : Prop where
  calls : ∀ t ∈ l.threads, t.2.Issues fun _ c ↦ Unscheduling c
  listed : ∀ n id, Lists l.store n id → 1 ≤ l.placements n id
  answered : ∀ x ∈ l.assigned, 1 ≤ l.polled x.1 x.2 ∧ l.polled x.1 x.2 ≤ l.placements x.1 x.2
  numbered : ∀ p ∈ l.starts, 1 ≤ p.number ∧ p.number ≤ l.placements p.nodeID p.jobID
  /-- A placement that was started is being executed, or can no longer be picked up. -/
  spent : ∀ p ∈ l.starts, l.claimable p.nodeID p.jobID = true → ¬ l.Open p
  nodup : l.starts.Nodup

theorem sound_initial : initial.Sound where
  calls _ ht := absurd ht List.not_mem_nil
  listed _ _ := by
    rintro ⟨j, hj, -⟩
    exact absurd hj List.not_mem_nil
  answered _ hx := absurd hx List.not_mem_nil
  numbered _ hp := absurd hp List.not_mem_nil
  spent _ hp := absurd hp List.not_mem_nil
  nodup := .nil

namespace Sound

variable {l : Ledger}

/-! ### The control plane -/

/-- An operation begins. -/
theorem begin (h : l.Sound) (op : Operation) :
    ∀ t ∈ l.threads ++ [(op, op.thread)], t.2.Issues fun _ c ↦ Unscheduling c := by
  intro t ht
  rcases List.mem_append.mp ht with ht | ht
  · exact h.calls t ht
  · rw [List.mem_singleton.mp ht]
    exact op.issues_unscheduling

/-- A step of the control plane after which no job is listed that was not listed before or placed
once more. -/
theorem withPlane (h : l.Sound) {P : Plane (Store × Tally)}
    (hcalls : ∀ t ∈ P.threads, t.2.Issues fun _ c ↦ Unscheduling c)
    (hle : ∀ n id, l.placements n id ≤ P.shared.2 n id)
    (hlists : ∀ n id, Lists P.shared.1 n id →
      Lists l.store n id ∨ l.placements n id < P.shared.2 n id) : (l.withPlane P).Sound where
  calls := hcalls
  listed n id hlist := by
    change 1 ≤ P.shared.2 n id
    rcases hlists n id hlist with hlist | hlt
    · exact (h.listed n id hlist).trans (hle n id)
    · omega
  answered x hx := ⟨(h.answered x hx).1, (h.answered x hx).2.trans (hle _ _)⟩
  numbered p hp := ⟨(h.numbered p hp).1, (h.numbered p hp).2.trans (hle _ _)⟩
  spent p hp hclaim := by
    rintro (⟨hlist, heq⟩ | hopen)
    · -- the account is not below the number of the placement, so a new placement is another one
      have hnum := (h.numbered p hp).2
      have hmono := hle p.nodeID p.jobID
      change P.shared.2 p.nodeID p.jobID = p.number at heq
      rcases hlists _ _ hlist with hlist | hlt
      · exact h.spent p hp hclaim (.inl ⟨hlist, by omega⟩)
      · omega
    · exact h.spent p hp hclaim (.inr hopen)
  nodup := h.nodup

/-- An operation in progress takes a turn. -/
theorem turn (h : l.Sound) (i : Nat) (env : Env) : (l.next (.turn i env)).Sound := by
  change (l.withPlane (l.plane.stepAt counted i env)).Sound
  rcases Pool.stepAt_cases i env l.plane with heq | ⟨op, m, c, k, hi, heq⟩ <;> rw [heq]
  · exact h
  · obtain ⟨hc, hk⟩ := h.calls (op, .call m c k) (List.mem_of_getElem? hi)
    refine h.withPlane (fun t ht ↦ ?_) (fun n id ↦ le_count) fun n id ↦ lists_exec hc
    rcases List.mem_or_eq_of_mem_set ht with ht | rfl
    · exact h.calls t ht
    · exact hk _

/-! ### The agents -/

/-- The agent polls. -/
theorem poll (h : l.Sound) {nodeID : String} (hidle : ∀ x ∈ l.assigned, x.1 ≠ nodeID)
    (ω : Nat → Env) : (l.next (.poll nodeID ω)).Sound := by
  obtain ⟨hstore, hanswer⟩ := l.poll_spec nodeID ω
  have hother : ∀ {n id}, n ≠ nodeID → (l.next (.poll nodeID ω)).polled n id = l.polled n id :=
    fun h ↦ if_neg h
  have hself : ∀ {n id}, n = nodeID → (l.next (.poll nodeID ω)).polled n id = l.placements n id :=
    fun h ↦ if_pos h
  constructor
  case calls => exact h.calls
  case listed => exact fun n id hlist ↦ h.listed n id (hstore ▸ hlist)
  case answered =>
      intro x hx
      change 1 ≤ _ ∧ _ ≤ l.placements x.1 x.2
      rcases hanswer x hx with hx | ⟨hn, hlist⟩
      · rw [hother (hidle x hx)]
        exact h.answered x hx
      · rw [hself hn]
        exact ⟨h.listed _ _ hlist, le_rfl⟩
  case numbered => exact h.numbered
  case spent =>
      intro p hp hclaim hopen
      refine h.spent p hp hclaim ?_
      rcases hopen with ⟨hlist, hnum⟩ | ⟨hx, hnum⟩
      · exact .inl ⟨hstore ▸ hlist, hnum⟩
      · rcases hanswer _ hx with hx | ⟨hn, hlist⟩
        · rw [hother (hidle _ hx)] at hnum
          exact .inr ⟨hx, hnum⟩
        · -- what is listed anew is the placement of the moment
          rw [hself hn] at hnum
          exact .inl ⟨hlist, hnum⟩
  case nodup => exact h.nodup

/-- An answer, or a part of it, is dropped. -/
theorem erase (h : l.Sound) (x : String × String) :
    { l with assigned := l.assigned.erase x }.Sound where
  calls := h.calls
  listed := h.listed
  answered y hy := h.answered y (List.mem_of_mem_erase hy)
  numbered := h.numbered
  spent p hp hclaim := by
    rintro (hlist | ⟨hx, hnum⟩)
    · exact h.spent p hp hclaim (.inl hlist)
    · exact h.spent p hp hclaim (.inr ⟨List.mem_of_mem_erase hx, hnum⟩)
  nodup := h.nodup

/-- A job of the answer is claimed, or passed over because it is being executed. -/
theorem claim (h : l.Sound) {nodeID jobID : String} (hx : (nodeID, jobID) ∈ l.assigned) :
    (l.next (.claim nodeID jobID)).Sound := by
  have herase := h.erase (nodeID, jobID)
  rw [next]
  split
  · rename_i hfree
    -- nothing that was started before is open, and the answer keeps this placement open
    have hfresh : (⟨nodeID, jobID, l.polled nodeID jobID⟩ : Placement) ∉ l.starts := fun hp ↦
      h.spent _ hp hfree (.inr ⟨hx, rfl⟩)
    constructor
    case calls => exact h.calls
    case listed => exact h.listed
    case answered => exact herase.answered
    case numbered =>
        intro p hp
        rcases List.mem_append.mp hp with hp | hp
        · exact h.numbered p hp
        · rw [List.mem_singleton.mp hp]
          exact h.answered _ hx
    case spent =>
        intro p hp hclaim
        rw [claimable_iff] at hclaim
        rcases List.mem_append.mp hp with hp | hp
        · refine herase.spent p hp (claimable_iff.mpr fun y hy ↦ ?_)
          exact hclaim y (List.mem_append_left _ hy)
        · rw [List.mem_singleton.mp hp] at hclaim
          exact absurd ⟨rfl, rfl⟩ (hclaim _ (List.mem_append_right _ List.mem_cons_self))
    case nodup => exact h.nodup.append (List.nodup_singleton _) (by simpa using hfresh)
  · exact herase

/-- The claims and the messages change, and what can be claimed again is over. -/
theorem withClaims (h : l.Sound) {claims : List Claim} {inFlight : List Grpc.JobStatusUpdate}
    (hspent : ∀ p ∈ l.starts,
      { l with claims := claims, inFlight := inFlight }.claimable p.nodeID p.jobID = true →
        l.claimable p.nodeID p.jobID = true ∨ ¬ l.Open p) :
    { l with claims := claims, inFlight := inFlight }.Sound where
  calls := h.calls
  listed := h.listed
  answered := h.answered
  numbered := h.numbered
  spent p hp hclaim := by
    rcases hspent p hp hclaim with hclaim | hclosed
    · exact h.spent p hp hclaim
    · exact hclosed
  nodup := h.nodup

/-- One step. -/
theorem next {mv : Move} (h : l.Sound) (he : l.Enabled mv) (hk : Settled l mv) :
    (l.next mv).Sound := by
  cases mv with
  | begin op => exact ⟨h.begin op, h.listed, h.answered, h.numbered, h.spent, h.nodup⟩
  | serve req => exact ⟨h.begin _, h.listed, h.answered, h.numbered, h.spent, h.nodup⟩
  | turn i env => exact h.turn i env
  | poll nodeID ω => exact h.poll he ω
  | claim nodeID jobID => exact h.claim he
  | start x => exact h.withClaims fun p _ hclaim ↦ .inl (claimable_of_send hclaim)
  | finish x failed => exact h.withClaims fun p _ hclaim ↦ .inl (claimable_of_send hclaim)
  | done x =>
      refine h.withClaims fun p hp hclaim ↦ ?_
      by_cases hkey : x.nodeID = p.nodeID ∧ x.jobID = p.jobID
      · exact .inr (hk p hp hkey.1.symm hkey.2.symm)
      · exact .inl (claimable_of_done hclaim hkey)

/-- There are no more starts of a job on a node than placements. -/
theorem length_starts_le (h : l.Sound) (nodeID jobID : String) :
    (l.starts.filter fun p ↦ p.nodeID = nodeID ∧ p.jobID = jobID).length ≤
      l.placements nodeID jobID := by
  have hnumbers : ((l.starts.filter fun p ↦ p.nodeID = nodeID ∧ p.jobID = jobID).map
      Placement.number).Nodup := by
    refine List.Nodup.map_on (fun p hp q hq hpq ↦ ?_) (h.nodup.filter _)
    simp only [List.mem_filter, decide_eq_true_eq] at hp hq
    obtain ⟨-, hn, hj⟩ := hp
    obtain ⟨-, hn', hj'⟩ := hq
    exact Placement.ext (hn.trans hn'.symm) (hj.trans hj'.symm) hpq
  have hrange : ∀ k ∈ (l.starts.filter fun p ↦ p.nodeID = nodeID ∧ p.jobID = jobID).map
      Placement.number, k ∈ List.range' 1 (l.placements nodeID jobID) := by
    intro k hk
    obtain ⟨p, hp, rfl⟩ := List.mem_map.mp hk
    simp only [List.mem_filter, decide_eq_true_eq] at hp
    obtain ⟨hp, rfl, rfl⟩ := hp
    have hbounds := h.numbered p hp
    rw [List.mem_range'_1]
    omega
  simpa using (hnumbers.subperm hrange).length_le

end Sound

end Ledger

/-- **One start for each placement.**  The operations of the control plane interleave in any way,
reports are lost or served at any time, and answers to polls are gone through at any time after
they were computed, but before the agent polls again.  In every run in which a claim is cleared only
when its placement can no longer be picked up, no placement is started twice, and a job is started
on a node no more often than it was placed there. -/
theorem started_once_of_settled {l : Ledger} (h : ledger.Reach Settled .initial l) :
    l.starts.Nodup ∧
      (∀ p ∈ l.starts, 1 ≤ p.number ∧ p.number ≤ l.placements p.nodeID p.jobID) ∧
      ∀ nodeID jobID, (l.starts.filter fun p ↦ p.nodeID = nodeID ∧ p.jobID = jobID).length ≤
        l.placements nodeID jobID := by
  have hsound : l.Sound := h.induct Ledger.sound_initial fun l mv hl he hk ↦ hl.next he hk
  exact ⟨hsound.nodup, hsound.numbered, hsound.length_starts_le⟩

namespace Small

/-- A request for one GPU. -/
def request : Api.SubmitJobRequest where
  userID := "user"
  priority := 5
  gpuCount := 1
  cpuCount := 0
  memoryGB := 0

/-- The operation begins as number `i` and takes the given number of turns. -/
def whole (i : Nat) (op : Operation) (calls : Nat) (now : Time) : List Move :=
  .begin op :: List.replicate calls (.turn i ⟨false, now⟩)

/-- The report is served, as number `i`. -/
def served (i : Nat) (status : JobStatus) (calls : Nat) (now : Time) : List Move :=
  .serve ⟨"job", "n", status⟩ :: List.replicate calls (.turn i ⟨false, now⟩)

/-- A node registers, a job is submitted and placed there, and the agent starts to execute it. -/
def begun : List Move :=
  whole 0 (.register ⟨"n", "n", ⟨4, 0, 0⟩⟩) 1 1 ++
    whole 1 (.submit request "job" 1 3) 1 1 ++
    whole 2 (.tick (engine .firstFit true) ⟨2, 2⟩) 8 2 ++
    [.poll "n" calm, .claim "n" "job", .start ⟨"n", "job", .claimed⟩]

/-- The node is taken for lost and heard of again, and the job is placed there once more, before
the first execution ends. -/
def startedAgain : List Move :=
  begun ++ served 3 .running 2 3 ++
    whole 4 (.tick (engine .firstFit true) ⟨200, 200⟩) 8 200 ++
    whole 5 (.heartbeat "n") 2 201 ++
    whole 6 (.tick (engine .firstFit true) ⟨202, 202⟩) 8 202 ++
    [.finish ⟨"n", "job", .running⟩ false, .done ⟨"n", "job", .reported⟩, .poll "n" calm,
      .claim "n" "job"]

end Small

/-- Two placements, and two starts. -/
theorem started_once_of_settled_startedAgain :
    (ledger.play .initial Small.startedAgain).starts = [⟨"n", "job", 1⟩, ⟨"n", "job", 2⟩] ∧
      (ledger.play .initial Small.startedAgain).starts.Nodup := by
  refine ⟨by decide +kernel, ?_⟩
  exact (started_once_of_settled (Machine.reach_play (by decide +kernel))).1

namespace Small

/-- The reports of the execution are lost, and the agent polls again. -/
def unreported : List Move :=
  begun ++ [.finish ⟨"n", "job", .running⟩ false, .done ⟨"n", "job", .reported⟩, .poll "n" calm,
    .claim "n" "job"]

/-- An answer is computed before the first report is served, and the agent goes through it after
the last report was served. -/
def lateAnswer : List Move :=
  begun ++ [.poll "n" calm] ++ served 3 .running 2 3 ++ [.finish ⟨"n", "job", .running⟩ false] ++
    served 4 .completed 4 4 ++ [.done ⟨"n", "job", .reported⟩, .claim "n" "job"]

end Small

/-- **A placement is started twice.**  When the reports of an execution are lost, the control plane
still lists the job after `execute` has returned.  And when none is lost, an answer that is late
brings the job back. -/
theorem started_twice :
    (∃ l, ledger.Reach (fun _ _ ↦ True) .initial l ∧
      l.placements "n" "job" = 1 ∧ l.starts = [⟨"n", "job", 1⟩, ⟨"n", "job", 1⟩]) ∧
    ∃ l, ledger.Reach (fun _ _ ↦ True) .initial l ∧ l.inFlight = [] ∧
      l.placements "n" "job" = 1 ∧ l.starts = [⟨"n", "job", 1⟩, ⟨"n", "job", 1⟩] := by
  refine ⟨⟨ledger.play .initial Small.unreported, ?_, ?_⟩,
    ledger.play .initial Small.lateAnswer, ?_, ?_⟩
  · exact Machine.reach_play (by decide +kernel)
  · decide +kernel
  · exact Machine.reach_play (by decide +kernel)
  · decide +kernel

end GpuScheduler
