import GpuScheduler.Accounting.Load
import GpuScheduler.Lib.Group
import GpuScheduler.Scheduler.Engine
import GpuScheduler.Scheduler.Fragmentation

/-!
# Two views of what is in use

The fair-share scheduler reads the GPUs in use off the jobs table: `TeamGPUUsage` adds up what the
active jobs of each team ask for, and `teamShares` divides by the capacity of the cluster.  The
dashboard reads them off the nodes table: `ClusterSnapshot` adds up capacity minus availability.

When the books are right and every active job is on a node that exists, both are sums over the
active jobs, by team and by node, and so they agree (`views_agree`).
-/

namespace GpuScheduler

open Lib Models Scheduler

/-! ## The snapshot, by resource -/

namespace Models.ClusterUtilization

variable (u : ClusterUtilization)

/-- The capacity of the cluster in one resource. -/
def total : Resource → Int
  | .gpu => u.totalGPUs
  | .cpu => u.totalCPUs
  | .memory => u.totalMemoryGB

/-- How much of it is in use. -/
def used : Resource → Int
  | .gpu => u.usedGPUs
  | .cpu => u.usedCPUs
  | .memory => u.usedMemoryGB

/-- The fraction of it that is in use. -/
def utilization : Resource → ℚ
  | .gpu => u.gpuUtilization
  | .cpu => u.cpuUtilization
  | .memory => u.memoryUtilization

end Models.ClusterUtilization

namespace Scheduler

theorem total_snapshotStep (u : ClusterUtilization) (n : Node) (d : Resource) :
    (snapshotStep u n).total d = u.total d + n.cap d := by
  cases d <;> rfl

theorem used_snapshotStep (u : ClusterUtilization) (n : Node) (d : Resource) :
    (snapshotStep u n).used d = u.used d + (n.cap d - n.avail d) := by
  cases d <;> rfl

/-- The loop adds up capacities, and what is not available of them. -/
theorem foldl_snapshotStep (nodes : List Node) (u : ClusterUtilization) (d : Resource) :
    (nodes.foldl snapshotStep u).total d = u.total d + (nodes.map fun n ↦ n.cap d).sum ∧
      (nodes.foldl snapshotStep u).used d =
        u.used d + (nodes.map fun n ↦ n.cap d - n.avail d).sum := by
  induction nodes generalizing u with
  | nil => exact ⟨(add_zero _).symm, (add_zero _).symm⟩
  | cons n nodes ih =>
      obtain ⟨htotal, hused⟩ := ih (snapshotStep u n)
      rw [List.foldl_cons, htotal, hused, total_snapshotStep, used_snapshotStep]
      simp only [List.map_cons, List.sum_cons, add_assoc]
      exact ⟨trivial, trivial⟩

variable (nodes : List Node) (jobsRunning jobsQueued : Int) (d : Resource)

theorem total_clusterSnapshot : (clusterSnapshot nodes jobsRunning jobsQueued).total d =
    (nodes.map fun n ↦ n.cap d).sum := by
  have hloop := (foldl_snapshotStep nodes {} d).1
  cases d <;> exact hloop.trans (zero_add _)

theorem used_clusterSnapshot : (clusterSnapshot nodes jobsRunning jobsQueued).used d =
    (nodes.map fun n ↦ n.cap d - n.avail d).sum := by
  have hloop := (foldl_snapshotStep nodes {} d).2
  cases d <;> exact hloop.trans (zero_add _)

theorem utilization_clusterSnapshot : (clusterSnapshot nodes jobsRunning jobsQueued).utilization d =
    ratio ((clusterSnapshot nodes jobsRunning jobsQueued).used d)
      ((clusterSnapshot nodes jobsRunning jobsQueued).total d) := by
  cases d <;> rfl

/-- What is used of something nonnegative, and no more of it than there is. -/
theorem ratio_mem_unit {used total : Int} (hused : 0 ≤ used) (hle : used ≤ total) :
    0 ≤ ratio used total ∧ ratio used total ≤ 1 := by
  have hused' : (0 : ℚ) ≤ used := by exact_mod_cast hused
  have hle' : (used : ℚ) ≤ total := by exact_mod_cast hle
  rw [ratio]
  split
  · exact ⟨le_rfl, zero_le_one⟩
  · exact ⟨div_nonneg hused' (hused'.trans hle'), div_le_one_of_le₀ hle' (hused'.trans hle')⟩

end Scheduler

/-! ## What the active jobs ask for -/

namespace Store

variable {s : Store}

/-- The jobs that occupy resources. -/
def active (s : Store) : List Job := s.jobs.rows.filter fun j ↦ j.status.isActive

/-- What they ask for. -/
def inUse (s : Store) (d : Resource) : Int := (s.active.map fun j ↦ j.request d).sum

theorem teamGPUUsage_eq (s : Store) : s.teamGPUUsage = groupBy Job.teamID Job.gpuCount s.active :=
  rfl

/-- Added up by team. -/
theorem sum_teamGPUUsage (s : Store) : (s.teamGPUUsage.map Prod.snd).sum = s.inUse .gpu :=
  sum_groupBy Job.teamID Job.gpuCount s.active

theorem load_eq_groupSum (s : Store) (id : String) (d : Resource) :
    s.load id d = groupSum Job.nodeID (fun j ↦ j.request d) s.active id := by
  rw [groupSum, active, List.filter_filter, sum_map_filter]
  apply congrArg List.sum
  apply List.map_congr_left
  intro j _
  rw [Job.usage]
  simp only [Bool.and_eq_true, decide_eq_true_eq, and_comm]

/-- Added up by node, when every active job is on one. -/
theorem sum_load (hassigned : ∀ j ∈ s.jobs.rows, j.status.isActive = true →
    ∃ n ∈ s.nodes.rows, n.nodeID = j.nodeID) (d : Resource) :
    (s.nodes.rows.map fun n ↦ s.load n.nodeID d).sum = s.inUse d := by
  have hkeys : ∀ j ∈ s.active, j.nodeID ∈ s.nodes.rows.map Node.nodeID := by
    intro j hj
    obtain ⟨hrow, hactive⟩ := List.mem_filter.mp hj
    obtain ⟨n, hn, hid⟩ := hassigned j hrow hactive
    exact hid ▸ List.mem_map_of_mem hn
  have hsum := sum_groupSum (w := fun j ↦ j.request d) s.nodes.nodup hkeys
  rw [List.map_map] at hsum
  rw [inUse, ← hsum]
  simp only [load_eq_groupSum]
  rfl

theorem sum_listNodes (s : Store) (w : Node → Int) :
    (s.listNodes.map w).sum = (s.nodes.rows.map w).sum :=
  ((perm_sliceStable _ s.nodes.rows).map w).sum_eq

/-- What the snapshot shows in use is what the active jobs ask for. -/
theorem used_snapshot (hacc : s.Accounted) (hassigned : ∀ j ∈ s.jobs.rows,
      j.status.isActive = true → ∃ n ∈ s.nodes.rows, n.nodeID = j.nodeID)
    (jobsRunning jobsQueued : Int) (d : Resource) :
    (clusterSnapshot s.listNodes jobsRunning jobsQueued).used d = s.inUse d := by
  rw [used_clusterSnapshot, ← sum_load hassigned, sum_listNodes]
  apply congrArg List.sum
  apply List.map_congr_left
  intro n hn
  rw [hacc n hn d]
  exact sub_sub_cancel _ _

theorem total_snapshot (s : Store) (jobsRunning jobsQueued : Int) (d : Resource) :
    (clusterSnapshot s.listNodes jobsRunning jobsQueued).total d =
      (s.nodes.rows.map fun n ↦ n.cap d).sum := by
  rw [total_clusterSnapshot, sum_listNodes]

/-- Capacities are not negative when neither availability nor what is in use is. -/
theorem inUse_le_total (hacc : s.Accounted) (hassigned : ∀ j ∈ s.jobs.rows,
      j.status.isActive = true → ∃ n ∈ s.nodes.rows, n.nodeID = j.nodeID)
    (havail : s.NonnegAvail) (d : Resource) :
    s.inUse d ≤ (s.nodes.rows.map fun n ↦ n.cap d).sum := by
  rw [← sum_load hassigned]
  apply List.sum_le_sum
  intro n hn
  exact load_le_cap hacc havail hn d

theorem inUse_nonneg (hreq : s.NonnegRequests) (d : Resource) : 0 ≤ s.inUse d := by
  apply List.sum_nonneg
  intro x hx
  obtain ⟨j, hj, rfl⟩ := List.mem_map.mp hx
  exact hreq j (List.mem_filter.mp hj).1 d

end Store

/-! ## Shares -/

/-- Without a failure `teamShares` returns the shares of the teams. -/
theorem runs_teamShares_iff {s t : Store} {nodes : List Node} {shares : List (String × ℚ)} :
    Runs NoError (Engine.teamShares nodes) s shares t ↔
      shares = Engine.sharesOf nodes s.teamGPUUsage ∧ t = s := by
  constructor
  · intro hr
    refine hr.of_wp (Q := fun a u ↦ a = Engine.sharesOf nodes s.teamGPUUsage ∧ u = s) ?_
    refine Act.wp_bind.mpr (Act.wp_call_alone.mpr ?_)
    intro env henv
    rw [Store.exec_of_ok henv]
    exact Act.wp_pure_alone.mpr ⟨rfl, rfl⟩
  · rintro ⟨rfl, rfl⟩
    exact runs_runOp (ω := calm) ⟨rfl, trivial⟩

theorem sum_shares (usage : List (String × Int)) (total : ℚ) :
    ((usage.map fun u ↦ (u.1, (u.2 : ℚ) / total)).map Prod.snd).sum =
      ((usage.map Prod.snd).sum : ℚ) / total := by
  induction usage with
  | nil => simp
  | cons u usage ih =>
      simp only [List.map_cons, List.sum_cons, ih]
      push_cast
      rw [add_div]

/-- **The job view and the node view agree.**  When the books are right, every active job is on a
node that exists and the cluster has GPUs: `teamShares` returns shares that add up to the
utilisation that the snapshot shows, and the snapshot shows as many GPUs in use as `TeamGPUUsage`
adds up to; and when nothing is negative, the shares and the three utilisations are between 0
and 1. -/
theorem views_agree {s : Store} (hacc : s.Accounted) (hassigned : ∀ j ∈ s.jobs.rows,
      j.status.isActive = true → ∃ n ∈ s.nodes.rows, n.nodeID = j.nodeID)
    (hpos : 0 < (s.nodes.rows.map Node.gpuCapacity).sum) (jobsRunning jobsQueued : Int) :
    ∃ shares, (∀ shares' t, Runs NoError (Engine.teamShares s.listNodes) s shares' t ↔
        shares' = shares ∧ t = s) ∧
      (shares.map Prod.snd).sum =
        (clusterSnapshot s.listNodes jobsRunning jobsQueued).gpuUtilization ∧
      (clusterSnapshot s.listNodes jobsRunning jobsQueued).usedGPUs =
        (s.teamGPUUsage.map Prod.snd).sum ∧
      (s.NonnegAvail → s.NonnegRequests →
        (∀ share ∈ shares, 0 ≤ share.2 ∧ share.2 ≤ 1) ∧
        ∀ d, 0 ≤ (clusterSnapshot s.listNodes jobsRunning jobsQueued).utilization d ∧
          (clusterSnapshot s.listNodes jobsRunning jobsQueued).utilization d ≤ 1) := by
  have htotal : (s.listNodes.map Node.gpuCapacity).sum =
      (s.nodes.rows.map fun n ↦ n.cap .gpu).sum := s.sum_listNodes Node.gpuCapacity
  have hne : (s.nodes.rows.map fun n ↦ n.cap .gpu).sum ≠ 0 := hpos.ne'
  have hshares : Engine.sharesOf s.listNodes s.teamGPUUsage = s.teamGPUUsage.map fun u ↦
      (u.1, (u.2 : ℚ) / ((s.nodes.rows.map fun n ↦ n.cap .gpu).sum : Int)) := by
    simp only [Engine.sharesOf]
    rw [htotal, if_neg hne]
  have hused := s.used_snapshot hacc hassigned jobsRunning jobsQueued
  have hratio : ∀ d, (clusterSnapshot s.listNodes jobsRunning jobsQueued).utilization d =
      ratio (s.inUse d) (s.nodes.rows.map fun n ↦ n.cap d).sum := fun d ↦ by
    rw [utilization_clusterSnapshot, hused, s.total_snapshot]
  refine ⟨Engine.sharesOf s.listNodes s.teamGPUUsage, fun _ _ ↦ runs_teamShares_iff, ?_, ?_, ?_⟩
  · rw [hshares, sum_shares, s.sum_teamGPUUsage]
    exact ((hratio .gpu).trans (if_neg hne)).symm
  · exact (hused .gpu).trans s.sum_teamGPUUsage.symm
  · intro havail hreq
    refine ⟨?_, ?_⟩
    · intro share hshare
      rw [hshares] at hshare
      obtain ⟨u, hu, rfl⟩ := List.mem_map.mp hshare
      have hgpus : ∀ j ∈ s.active, 0 ≤ j.gpuCount := fun j hj ↦
        hreq j (List.mem_filter.mp hj).1 .gpu
      obtain ⟨hnonneg, hle⟩ := nonneg_le_of_mem_groupBy hgpus (s.teamGPUUsage_eq ▸ hu)
      have hunit := ratio_mem_unit hnonneg
        (hle.trans (s.inUse_le_total hacc hassigned havail .gpu))
      rw [ratio, if_neg hne] at hunit
      exact hunit
    · intro d
      rw [hratio]
      exact ratio_mem_unit (s.inUse_nonneg hreq d) (s.inUse_le_total hacc hassigned havail d)

/-- Two jobs of different teams on one of two nodes. -/
def Small.twoTeams : Store :=
  Small.store
    [Small.job "a" .running 1 2 "n" 0,
      { Small.job "b" .scheduled 1 1 "n" 1 with teamID := "other" }]
    [Small.node "n" .ready 4 1, Small.node "m" .ready 4 4]

theorem views_agree_twoTeams :
    Small.twoTeams.Accounted ∧ Small.twoTeams.inUse .gpu = 3 ∧
      (clusterSnapshot Small.twoTeams.listNodes 2 0).usedGPUs =
        (Small.twoTeams.teamGPUUsage.map Prod.snd).sum := by
  have hacc : Small.twoTeams.Accounted := by decide
  obtain ⟨shares, -, -, hused, -⟩ := views_agree hacc (by decide) (by decide) 2 0
  exact ⟨hacc, by decide, hused⟩

end GpuScheduler
