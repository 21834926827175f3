import GpuScheduler.Accounting.Conservation
import GpuScheduler.Lib.Allocation
import GpuScheduler.Scheduler.Settling

/-!
# The control plane as an allocator

The control plane keeps an availability in every node row, which placements, reports and cancel
requests read and write one after the other.  An allocator has no such record: it adds up what the
jobs on a node ask for.  `Store.allocation` forgets the availabilities, and in a well-behaved run
that makes no difference: every operation is a sequence of steps of the allocator, and `Node.Fits`
decides from the record what the allocator decides from the jobs (`WellBehaved.refines_allocator`).

What is proved of the allocator therefore holds of the control plane.  If every queued job would fit
on some ready node that is empty, then passes that alternate with the reports of all jobs that were
placed leave nothing in the queue after as many rounds as there were queued jobs
(`queue_drains`).
-/

namespace GpuScheduler

open Lib Models Scheduler

/-! ## The abstraction -/

/-- A job that is queued waits, an active one is on its node, and any other is over. -/
def Models.Job.standing (j : Job) : Standing String :=
  if j.status.isActive then .on j.nodeID else if j.status = .queued then .waiting else .over

def Models.Job.task (j : Job) : Task String String Resource Int := ⟨j.jobID, j.request, j.standing⟩

theorem Models.Job.id_task (j : Job) : j.task.id = j.jobID := rfl

/-- A host is open when jobs may be placed on the node. -/
def Models.Node.host (n : Node) : Host String Resource Int :=
  ⟨n.nodeID, n.cap, n.status.schedulable⟩

theorem Models.Node.id_host (n : Node) : n.host.id = n.nodeID := rfl

namespace Store

def tasks (s : Store) : Table (Task.id : Task String String Resource Int → String) :=
  s.jobs.view Job.task Job.id_task

def hosts (s : Store) : Table (Host.id : Host String Resource Int → String) :=
  s.nodes.view Node.host Node.id_host

/-- The allocation that a store stands for. -/
def allocation (s : Store) : Allocation String String Resource Int := ⟨s.tasks, s.hosts⟩

variable {s : Store}

theorem mem_tasks {x : Task String String Resource Int} :
    x ∈ s.allocation.tasks.rows ↔ ∃ j ∈ s.jobs.rows, j.task = x := by
  change x ∈ (s.jobs.view Job.task Job.id_task).rows ↔ _
  rw [Table.mem_view]

theorem mem_hosts {x : Host String Resource Int} :
    x ∈ s.allocation.hosts.rows ↔ ∃ n ∈ s.nodes.rows, n.host = x := by
  change x ∈ (s.nodes.view Node.host Node.id_host).rows ↔ _
  rw [Table.mem_view]

end Store

namespace Models.Job

variable {j : Job}

theorem standing_of_active (h : j.status.isActive = true) : j.standing = .on j.nodeID := if_pos h

theorem standing_eq_on_iff {n : String} :
    j.standing = .on n ↔ j.status.isActive = true ∧ j.nodeID = n := by
  rw [standing]
  split
  · rename_i h
    simp [h]
  · rename_i h
    split <;> simp [h]

theorem standing_eq_waiting_iff : j.standing = .waiting ↔ j.status = .queued := by
  rw [standing]
  cases j.status <;> simp [JobStatus.isActive]

theorem standing_withStatus_of_terminal {st : JobStatus} (h : st.isTerminal = true) (now : Time) :
    (j.withStatus st now).standing = .over := by
  cases st with
  | completed | failed | cancelled => rfl
  | queued | scheduled | running | preempted => cases h

end Models.Job

namespace Store

variable {s : Store}

/-- A job takes from a node what its task takes from the host. -/
theorem load_allocation (id : String) (d : Resource) : s.allocation.load id d = s.load id d := by
  have hsum : s.tasks.sum (fun x ↦ if x.standing = .on id then x.request d else 0) =
      s.jobs.sum fun j ↦ if j.standing = .on id then j.request d else 0 := by
    rw [tasks, Table.sum_view]
    rfl
  refine hsum.trans ?_
  rw [load]
  refine Table.sum_congr fun j _ ↦ ?_
  simp only [Job.usage, Job.standing_eq_on_iff]

/-- **What `Node.Fits` decides** from the availabilities is what the allocator decides from the jobs
on the node, as long as the books are right. -/
theorem takes_iff (h : s.Accounted) {n : Node} (hn : n ∈ s.nodes.rows) (j : Job) :
    s.allocation.Takes n.host j.task ↔ n.fits j.resourceRequest = true := by
  have hroom : ∀ d, s.allocation.load n.host.id d + j.task.request d ≤ n.host.capacity d ↔
      j.resourceRequest.amount d ≤ n.avail d := by
    intro d
    rw [load_allocation, h n hn d]
    change s.load n.nodeID d + j.request d ≤ n.cap d ↔ j.request d ≤ _
    omega
  rw [Node.fits_iff]
  constructor
  · rintro ⟨hopen, hle⟩
    exact ⟨of_decide_eq_true hopen, fun d ↦ (hroom d).mp (hle d)⟩
  · rintro ⟨hready, hle⟩
    exact ⟨decide_eq_true hready, fun d ↦ (hroom d).mpr (hle d)⟩

/-! ## Statements -/

/-- What became of the store is what a sequence of steps makes of its allocation. -/
def Steps (s t : Store) : Prop :=
  Relation.ReflTransGen Allocation.Step s.allocation t.allocation

theorem Steps.refl (s : Store) : Steps s s := Relation.ReflTransGen.refl

theorem allocation_schedule (id nodeID : String) :
    (s.schedule id nodeID).allocation = s.allocation.move id (.on nodeID) := by
  have htasks : (s.schedule id nodeID).tasks =
      s.tasks.modify id (·.move (.on nodeID)) (·.id_move _) := by
    rw [tasks, jobs_schedule]
    exact Table.view_modify fun _ _ _ ↦ rfl
  rw [allocation, htasks]
  rfl

/-- A status that moves the job. -/
theorem allocation_updateStatus {job : Job} (hjob : s.jobs.find? job.jobID = some job)
    {st : JobStatus} {now : Time} {x : Standing String}
    (hx : (job.withStatus st now).standing = x) :
    (s.updateStatus job.jobID st now).allocation = s.allocation.move job.jobID x := by
  have htasks : (s.updateStatus job.jobID st now).tasks =
      s.tasks.modify job.jobID (·.move x) (·.id_move _) := by
    rw [tasks, jobs_updateStatus]
    refine Table.view_modify fun r hr hid ↦ ?_
    obtain rfl := s.jobs.eq_of_key_eq hr (Table.mem_of_find? hjob) hid
    rw [Job.task, hx]
    rfl
  rw [allocation, htasks]
  rfl

/-- The availabilities are not seen. -/
theorem allocation_writeBack (n : Node) : (s.writeBack n).allocation = s.allocation := by
  have hhosts : (s.writeBack n).hosts = s.hosts := by
    rw [hosts, nodes_writeBack]
    refine Table.view_modify_of_eq fun r _ _ ↦ ?_
    have hcap : ∀ g c m, (r.setAvailable g c m).cap = r.cap := by
      intro g c m
      funext d
      cases d <;> rfl
    rw [Node.host, hcap]
    rfl
  rw [allocation, hhosts]
  rfl

theorem allocation_release (job : Job) : (s.release job).allocation = s.allocation := by
  rw [release]
  split
  · split
    · rfl
    · exact allocation_writeBack _
  · rfl

theorem allocation_place (job : Job) (node : Node) :
    (s.place job node).allocation = s.allocation.move job.jobID (.on node.nodeID) := by
  rw [place, allocation_writeBack, allocation_schedule]

/-- The end of a job. -/
theorem allocation_end {job : Job} (hjob : s.jobs.find? job.jobID = some job) {st : JobStatus}
    (hst : st.isTerminal = true) (now : Time) :
    ((s.release job).updateStatus job.jobID st now).allocation =
      s.allocation.move job.jobID .over := by
  have hjob' : (s.release job).jobs.find? job.jobID = some job := by rwa [jobs_release]
  rw [allocation_updateStatus hjob' (Job.standing_withStatus_of_terminal hst now),
    allocation_release]

end Store

/-! ## Every operation is a sequence of steps -/

namespace Conserved

variable {s t : Store}

/-- A pass makes placements and nothing else. -/
theorem kept_places (s : Store) :
    Kept fun t ↦ Relation.ReflTransGen Allocation.Places s.allocation t.allocation where
  events _ _ h := h
  place := by
    intro m t job queue node hc hstep hn hf h
    obtain ⟨hjob, hq⟩ := hstep.queued job List.mem_cons_self
    have hrow := Table.mem_of_find? (hstep.synced node hn)
    have hplace : Allocation.Places t.allocation
        (t.allocation.move job.task.id (.on node.host.id)) := by
      refine .mk (Store.mem_tasks.mpr ⟨job, Table.mem_of_find? hjob, rfl⟩) ?_
        (Store.mem_hosts.mpr ⟨node, hrow, rfl⟩) ((Store.takes_iff hc.accounted hrow job).mpr hf)
      exact Job.standing_eq_waiting_iff.mpr hq
    rw [Store.allocation_place]
    exact h.tail hplace

/-- An active job that comes to its end is one that finishes. -/
theorem finishes {job : Job} (hjob : s.jobs.find? job.jobID = some job)
    (hact : job.status.isActive = true) {st : JobStatus} (hst : st.isTerminal = true)
    (now : Time) : Allocation.Finishes s.allocation
      ((s.release job).updateStatus job.jobID st now).allocation := by
  have hfinish : Allocation.Finishes s.allocation (s.allocation.move job.task.id .over) :=
    .mk (Store.mem_tasks.mpr ⟨job, Table.mem_of_find? hjob, rfl⟩) (Job.standing_of_active hact)
  rw [Store.allocation_end hjob hst]
  exact hfinish

end Conserved

theorem WellBehaved.conserved_of_reach {ids : String → Prop} (hids : ¬ ids "") {s : Store}
    (h : Relation.ReflTransGen (WellBehaved ids) Store.empty s) : Conserved s := by
  induction h with
  | refl => exact .empty
  | tail _ hs ih => exact hs.conserved_step hids ih

/-- An active job is reported completed or failed. -/
inductive Reported (s t : Store) : Prop
  | mk {req : Grpc.JobStatusUpdate} {job : Job} {r : Except Grpc.RpcError Unit} :
      req.status = .completed ∨ req.status = .failed → s.jobs.find? req.jobID = some job →
      job.status.isActive = true → Runs NoError (Grpc.updateJobStatus req) s r t → Reported s t

/-- A pass without preemption, and then the reports of all jobs that are active. -/
inductive PassAndReports (s u : Store) : Prop
  | mk {e : Engine} {clock : Clock} {t : Store} {r : Except StoreError Unit} :
      e.cfg.enablePreemption = false → Runs Smooth (e.tick clock) s r t →
      Relation.ReflTransGen Reported t u → (∀ j ∈ u.jobs.rows, j.status.isActive = false) →
      PassAndReports s u

/-- As many rounds, one after the other. -/
inductive Rounds : ℕ → Store → Store → Prop
  | nil (s : Store) : Rounds 0 s s
  | cons {n : ℕ} {s t u : Store} : PassAndReports s t → Rounds n t u → Rounds (n + 1) s u

section Drain

variable {s t u : Store}

theorem Store.length_listByStatuses_queued (s : Store) : (s.listByStatuses [.queued]).length =
    (s.jobs.rows.filter fun j ↦ j.status = .queued).length := by
  rw [Store.listByStatuses, (perm_sliceStable _ _).length_eq]
  simp

theorem idle_allocation_iff :
    s.allocation.Idle ↔ ∀ j ∈ s.jobs.rows, j.status.isActive = false := by
  constructor
  · intro h j hj
    rw [Bool.eq_false_iff]
    intro hact
    exact h j.task (Store.mem_tasks.mpr ⟨j, hj, rfl⟩) j.nodeID (Job.standing_of_active hact)
  · rintro h x hx n hon
    obtain ⟨j, hj, rfl⟩ := Store.mem_tasks.mp hx
    have hact := (Job.standing_eq_on_iff.mp hon).1
    rw [h j hj] at hact
    cases hact

/-- A store in which no queued job fits is an allocation that takes no task. -/
theorem saturated_allocation (h : s.Accounted) (hs : Scheduler.Settled s) :
    s.allocation.Saturated := by
  intro x hx hw y hy htakes
  obtain ⟨j, hj, rfl⟩ := Store.mem_tasks.mp hx
  obtain ⟨n, hn, rfl⟩ := Store.mem_hosts.mp hy
  have hfits := (Store.takes_iff h hn j).mp htakes
  rw [hs j hj (Job.standing_eq_waiting_iff.mp hw) n hn] at hfits
  cases hfits

theorem backlog_allocation :
    s.allocation.backlog = s.jobs.keysWhere fun j ↦ j.status = .queued := by
  ext id
  change id ∈ s.tasks.keysWhere _ ↔ _
  rw [Table.mem_keysWhere, Table.mem_keysWhere, Store.tasks, Table.find?_view]
  simp only [Option.map_eq_some_iff, decide_eq_true_eq]
  constructor
  · rintro ⟨x, ⟨j, hj, rfl⟩, hw⟩
    exact ⟨j, hj, Job.standing_eq_waiting_iff.mp hw⟩
  · rintro ⟨j, hj, hq⟩
    exact ⟨j.task, ⟨j, hj, rfl⟩, Job.standing_eq_waiting_iff.mpr hq⟩

/-- A report. -/
theorem Reported.finishes (hr : Reported s t) (h : Conserved s) :
    Conserved t ∧ Allocation.Finishes s.allocation t.allocation := by
  obtain @⟨req, job, r, hst, hjob, hact, hr⟩ := hr
  have hok : ¬ CanFail NoError := not_canFail fun _ _ _ _ h ↦ h
  have hid : job.jobID = req.jobID := Table.key_of_find? hjob
  have hend : req.status.isActive = false ∧ req.status.isTerminal = true := by
    rcases hst with hst | hst <;> rw [hst] <;> exact ⟨rfl, rfl⟩
  have hmem : req.status ∈ [JobStatus.running, .completed, .failed] := by
    rcases hst with hst | hst <;> simp [hst]
  have hne : ¬ req.status = .running := by
    rcases hst with hst | hst <;> rw [hst] <;> decide
  obtain ⟨now, -, rfl⟩ := hr.final (Grpc.wp_updateJobStatus_ok hok hjob hmem)
  rw [if_neg hne, ← hid]
  rw [← hid] at hjob
  exact ⟨h.release hjob hact hend.1, Conserved.finishes hjob hact hend.2 now⟩

theorem Conserved.reports (h : Conserved s) (hr : Relation.ReflTransGen Reported s t) :
    Conserved t ∧ Relation.ReflTransGen Allocation.Finishes s.allocation t.allocation := by
  induction hr with
  | refl => exact ⟨h, .refl⟩
  | tail _ hreport ih =>
      obtain ⟨hc, hfinish⟩ := hreport.finishes ih.1
      exact ⟨hc, ih.2.tail hfinish⟩

/-- A pass and the reports after it are a round of the allocator. -/
theorem PassAndReports.round (hr : PassAndReports s u) (h : Conserved s) :
    Conserved u ∧ Allocation.Round s.allocation u.allocation := by
  obtain @⟨e, clock, t, r, hpre, hrun, hreports, hidle⟩ := hr
  have hadm : ∀ m c env s, Smooth m c env s →
      OnlyScheduleFails m c env s ∧ NoStale m c env s := by
    rintro m c env s ⟨hno, hstale⟩
    refine ⟨fun hf ↦ ?_, hstale⟩
    rw [show env.fails = false from hno] at hf
    cases hf
  obtain ⟨hc, hplaces⟩ := hrun.final
    (Conserved.wp_tick_keeping (Conserved.kept_places s) hadm hpre h .refl)
  obtain ⟨hcu, hfinishes⟩ := hc.reports hreports
  have hsettled : Scheduler.Settled t := by
    obtain ⟨p, rfl, hserved⟩ := served_tick hpre (fun j hj _ ↦ h.requests j hj) hrun
    exact hserved.settled
  exact ⟨hcu, ⟨t.allocation, hplaces, saturated_allocation hc.accounted hsettled, hfinishes⟩,
    idle_allocation_iff.mpr hidle⟩

/-- As many rounds as there are tasks in the backlog are enough. -/
theorem Rounds.backlog_eq_empty {n : ℕ} (hr : Rounds n s t) (h : Conserved s)
    (hf : s.allocation.Feasible) (hidle : s.allocation.Idle) (hn : s.allocation.backlog.card ≤ n) :
    t.allocation.backlog = ∅ := by
  induction hr with
  | nil s => exact Finset.card_eq_zero.mp (Nat.le_zero.mp hn)
  | @cons n s t u hround _ ih =>
      obtain ⟨hc, hround⟩ := hround.round h
      refine ih hc (hround.feasible hf) hround.idle ?_
      rcases s.allocation.backlog.eq_empty_or_nonempty with hempty | hsome
      · have hle := hround.backlog_le hf
        rw [hempty, Finset.card_empty] at hle
        omega
      · have hlt := hround.backlog_lt hf hidle hsome
        omega

end Drain

/-- **The queue drains.**  In a well-behaved run in which no node registers under the empty ID, let
no job be active, and let every queued job ask for no more than some ready node has.  After as many
rounds as there are queued jobs, each a pass without preemption and the reports of all jobs that are
active then, no job is queued; whatever the algorithms, and in whatever order the reports arrive. -/
theorem queue_drains {ids : String → Prop} (hids : ¬ ids "") {s t : Store} {n : ℕ}
    (h : Relation.ReflTransGen (WellBehaved ids) Store.empty s)
    (hidle : ∀ j ∈ s.jobs.rows, j.status.isActive = false)
    (hfits : ∀ j ∈ s.jobs.rows, j.status = .queued →
      ∃ n ∈ s.nodes.rows, n.status = .ready ∧ ∀ d, j.request d ≤ n.cap d)
    (hr : Rounds n s t) (hn : (s.listByStatuses [.queued]).length ≤ n) :
    ∀ j ∈ t.jobs.rows, j.status ≠ .queued := by
  have hc : Conserved s := WellBehaved.conserved_of_reach hids h
  have hfeasible : s.allocation.Feasible := by
    intro x hx hw
    obtain ⟨j, hj, rfl⟩ := Store.mem_tasks.mp hx
    obtain ⟨n, hn, hready, hle⟩ := hfits j hj (Job.standing_eq_waiting_iff.mp hw)
    exact ⟨n.host, Store.mem_hosts.mpr ⟨n, hn, rfl⟩, decide_eq_true hready, hle⟩
  have hcard : s.allocation.backlog.card ≤ n := by
    refine le_trans ?_ hn
    rw [backlog_allocation, Store.length_listByStatuses_queued]
    exact (List.toFinset_card_le _).trans_eq (List.length_map _)
  intro j hj hq
  have hmem : j.jobID ∈ t.allocation.backlog := by
    rw [backlog_allocation]
    exact Table.mem_keysWhere.mpr ⟨j, Table.find?_key hj, decide_eq_true hq⟩
  rw [hr.backlog_eq_empty hc hfeasible (idle_allocation_iff.mpr hidle) hcard] at hmem
  exact absurd hmem (Finset.notMem_empty _)

namespace Draining

/-- A submission that asks for both GPUs of the node. -/
def twoGPUs : Api.SubmitJobRequest :=
  { userID := "user", priority := 1, gpuCount := 2, cpuCount := 0, memoryGB := 0 }

def one : Store :=
  (runOp (Api.handleSubmitJob twoGPUs "a" 1 3) calm (OneJob.registered "n")).2

/-- Two such jobs are queued. -/
def two : Store := (runOp (Api.handleSubmitJob twoGPUs "b" 2 3) calm one).2

/-- A pass. -/
def pass (s : Store) : Store := (runOp (plain.tick ⟨3, 3⟩) calm s).2

/-- A report. -/
def report (id : String) (s : Store) : Store :=
  (runOp (Grpc.updateJobStatus ⟨id, "n", .completed⟩) calm s).2

/-- The first job runs, and then the second. -/
def halfway : Store := report "a" (pass two)

def after : Store := report "b" (pass halfway)

theorem reach : Relation.ReflTransGen (WellBehaved (· ≠ "")) Store.empty two := by
  have h₁ : WellBehaved (· ≠ "") Store.empty (OneJob.registered "n") := by
    refine .register (by decide) ?_ (fun n hn ↦ by cases hn)
      (runs_runOp (by decide +kernel))
    show ∀ d, 0 ≤ (⟨2, 0, 0⟩ : ResourceRequest).amount d
    decide
  have h₂ : WellBehaved (· ≠ "") (OneJob.registered "n") one :=
    .submit rfl (runs_runOp (by decide +kernel))
  have h₃ : WellBehaved (· ≠ "") one two := .submit rfl (runs_runOp (by decide +kernel))
  exact ((Relation.ReflTransGen.single h₁).tail h₂).tail h₃

/-- One round. -/
theorem round {s : Store} {id : String}
    (htick : (plain.tick ⟨3, 3⟩ default).Admits Store.exec Smooth calm s)
    (hreport : (Grpc.updateJobStatus ⟨id, "n", .completed⟩ default).Admits Store.exec NoError calm
      (pass s)) {job : Job} (hjob : (pass s).jobs.find? id = some job)
    (hact : job.status.isActive = true)
    (hidle : ∀ j ∈ (report id (pass s)).jobs.rows, j.status.isActive = false) :
    PassAndReports s (report id (pass s)) := by
  have hreported : Reported (pass s) (report id (pass s)) := by
    refine .mk ?_ hjob hact (runs_runOp hreport)
    exact .inl rfl
  exact .mk rfl (runs_runOp htick) (.single hreported) hidle

end Draining

/-- Both jobs ask for the whole node, so that they are over after two rounds. -/
theorem queue_drains_second :
    (Draining.after.jobs.find? "b").map Job.status = some .completed ∧
      ∀ j ∈ Draining.after.jobs.rows, j.status ≠ .queued := by
  have hfirst : PassAndReports Draining.two Draining.halfway :=
    Draining.round (by decide +kernel) (by decide +kernel) rfl (by decide +kernel)
      (by decide +kernel)
  have hsecond : PassAndReports Draining.halfway Draining.after :=
    Draining.round (by decide +kernel) (by decide +kernel) rfl (by decide +kernel)
      (by decide +kernel)
  have hrounds : Rounds 2 Draining.two Draining.after := .cons hfirst (.cons hsecond (.nil _))
  exact ⟨by decide +kernel, queue_drains (fun h ↦ h rfl) Draining.reach (by decide +kernel)
    (by decide +kernel) hrounds (by decide +kernel)⟩

end GpuScheduler
