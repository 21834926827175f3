import GpuScheduler.Lib.Spread
import GpuScheduler.Store.Basic
import Mathlib.Algebra.Order.Field.Rat

/-!
# Utilisation and fragmentation

`internal/scheduler/fragmentation.go`.  Ratios are exact rationals.

The fragmentation index is the spread of the free GPUs over the schedulable nodes.  What the index
means, its range, what its extreme values say and how it changes when free GPUs move, is then what
holds of any spread (`fragmentation_meaning`).
-/

namespace GpuScheduler

open Lib

/-- An aggregate snapshot of cluster resource usage. -/
structure Models.ClusterUtilization where
  totalGPUs : Int := 0
  usedGPUs : Int := 0
  totalCPUs : Int := 0
  usedCPUs : Int := 0
  totalMemoryGB : Int := 0
  usedMemoryGB : Int := 0
  gpuUtilization : ℚ := 0
  cpuUtilization : ℚ := 0
  memoryUtilization : ℚ := 0
  nodesReady : Int := 0
  nodesTotal : Int := 0
  jobsRunning : Int := 0
  jobsQueued : Int := 0
  fragmentation : ℚ := 0
deriving DecidableEq, Repr

namespace Scheduler

open Models

/-- One turn of the loop of `Fragmentation`: all free GPUs so far, and the largest free block. -/
def freeStep (free : Int × Int) (n : Node) : Int × Int :=
  if !n.status.schedulable then free
  else (free.1 + n.gpuAvailable, if n.gpuAvailable > free.2 then n.gpuAvailable else free.2)

/-- One minus the ratio of the largest free block to the total free capacity. -/
def fragmentation (nodes : List Node) : ℚ :=
  let free := nodes.foldl freeStep (0, 0)
  if free.1 = 0 then 0 else 1 - (free.2 : ℚ) / (free.1 : ℚ)

/-- A ratio, or 0 when there is nothing to be used. -/
def ratio (used total : Int) : ℚ := if total = 0 then 0 else (used : ℚ) / (total : ℚ)

/-- One turn of the loop of `ClusterSnapshot`. -/
def snapshotStep (u : ClusterUtilization) (n : Node) : ClusterUtilization :=
  { u with
    nodesTotal := u.nodesTotal + 1
    nodesReady := if n.status = .ready then u.nodesReady + 1 else u.nodesReady
    totalGPUs := u.totalGPUs + n.gpuCapacity
    usedGPUs := u.usedGPUs + (n.gpuCapacity - n.gpuAvailable)
    totalCPUs := u.totalCPUs + n.cpuCapacity
    usedCPUs := u.usedCPUs + (n.cpuCapacity - n.cpuAvailable)
    totalMemoryGB := u.totalMemoryGB + n.memoryCapacity
    usedMemoryGB := u.usedMemoryGB + (n.memoryCapacity - n.memoryAvailable) }

/-- Aggregate node and job state. -/
def clusterSnapshot (nodes : List Node) (jobsRunning jobsQueued : Int) : ClusterUtilization :=
  let u := nodes.foldl snapshotStep {}
  { u with
    gpuUtilization := ratio u.usedGPUs u.totalGPUs
    cpuUtilization := ratio u.usedCPUs u.totalCPUs
    memoryUtilization := ratio u.usedMemoryGB u.totalMemoryGB
    fragmentation := fragmentation nodes
    jobsRunning := jobsRunning
    jobsQueued := jobsQueued }

/-! ## The index is a spread -/

/-- The GPUs of a node that a new job could use. -/
def freeGPUs (n : Node) : Int := if n.status.schedulable then n.gpuAvailable else 0

/-- The parts over which the free GPUs are spread. -/
def freeBlocks (nodes : List Node) : List ℚ := nodes.map fun n ↦ (freeGPUs n : ℚ)

/-- The loop adds the blocks up and keeps the largest. -/
theorem foldl_freeStep (nodes : List Node) (free : Int × Int) (hfree : 0 ≤ free.2) :
    ((nodes.foldl freeStep free).1 : ℚ) = free.1 + (freeBlocks nodes).sum ∧
      ((nodes.foldl freeStep free).2 : ℚ) = (freeBlocks nodes).foldl max (free.2 : ℚ) := by
  induction nodes generalizing free with
  | nil => exact ⟨(add_zero _).symm, rfl⟩
  | cons n nodes ih =>
      rw [List.foldl_cons, freeBlocks, List.map_cons, ← freeBlocks, List.sum_cons, List.foldl_cons]
      by_cases hready : n.status.schedulable = true
      · have hstep : freeStep free n = (free.1 + n.gpuAvailable, max free.2 n.gpuAvailable) := by
          rw [freeStep, hready, max_def]
          simp only [Bool.not_true, Bool.false_eq_true, if_false]
          congr 1
          split <;> split <;> omega
        have hblock : freeGPUs n = n.gpuAvailable := if_pos hready
        obtain ⟨hsum, hmax⟩ := ih (free.1 + n.gpuAvailable, max free.2 n.gpuAvailable)
          (le_max_of_le_left hfree)
        rw [hstep, hblock, hsum, hmax]
        push_cast
        exact ⟨add_assoc _ _ _, rfl⟩
      · have hstep : freeStep free n = free := if_pos (by simpa using hready)
        have hblock : freeGPUs n = 0 := if_neg hready
        obtain ⟨hsum, hmax⟩ := ih free hfree
        rw [hstep, hblock, hsum, hmax, Int.cast_zero, zero_add,
          max_eq_left (by exact_mod_cast hfree)]
        exact ⟨rfl, rfl⟩

theorem fragmentation_eq_spread (nodes : List Node) :
    fragmentation nodes = spread (freeBlocks nodes) := by
  obtain ⟨hsum, hmax⟩ := foldl_freeStep nodes (0, 0) le_rfl
  rw [Int.cast_zero, zero_add] at hsum
  rw [Int.cast_zero] at hmax
  simp only [fragmentation]
  rw [spread, largest, ← hsum, ← hmax]
  norm_cast

/-- Nodes on which nothing may be placed are passed over. -/
theorem fragmentation_filter (nodes : List Node) :
    fragmentation (nodes.filter fun n ↦ n.status.schedulable) = fragmentation nodes := by
  have hstep : ∀ free, (nodes.filter fun n ↦ n.status.schedulable).foldl freeStep free =
      nodes.foldl freeStep free := by
    intro free
    rw [List.foldl_filter]
    congr 1
    funext free n
    rw [freeStep]
    cases n.status.schedulable <;> rfl
  rw [fragmentation, fragmentation, hstep]

/-- The order of the nodes does not matter. -/
theorem fragmentation_eq_of_perm {nodes nodes' : List Node}
    (h : (nodes'.filter fun n ↦ n.status.schedulable).Perm
      (nodes.filter fun n ↦ n.status.schedulable)) :
    fragmentation nodes' = fragmentation nodes := by
  rw [← fragmentation_filter nodes', ← fragmentation_filter nodes, fragmentation_eq_spread,
    fragmentation_eq_spread]
  exact spread_perm (h.map _)

theorem freeBlocks_nonneg {nodes : List Node} (hfree : ∀ n ∈ nodes, 0 ≤ n.gpuAvailable) :
    ∀ x ∈ freeBlocks nodes, 0 ≤ x := by
  intro x hx
  obtain ⟨n, hn, rfl⟩ := List.mem_map.mp hx
  rw [freeGPUs]
  split
  · exact_mod_cast hfree n hn
  · exact le_rfl

/-- The schedulable nodes that have a free GPU. -/
def freeNodes (nodes : List Node) : List Node :=
  nodes.filter fun n ↦ n.status.schedulable && decide (1 ≤ n.gpuAvailable)

theorem freeGPUs_pos_iff {n : Node} :
    0 < freeGPUs n ↔ n.status.schedulable = true ∧ 1 ≤ n.gpuAvailable := by
  rw [freeGPUs]
  split
  · rename_i hready
    rw [and_iff_right hready]
    exact Iff.rfl
  · rename_i hready
    simp [hready]

theorem holders_freeBlocks (nodes : List Node) :
    holders (freeBlocks nodes) = (freeNodes nodes).length := by
  rw [holders, freeBlocks, List.countP_map, freeNodes, ← List.countP_eq_length_filter]
  congr 1
  funext n
  rw [Bool.eq_iff_iff]
  simp [freeGPUs_pos_iff]

theorem mem_freeNodes {nodes : List Node} {n : Node} :
    n ∈ freeNodes nodes ↔ n ∈ nodes ∧ 0 < freeGPUs n := by
  rw [freeNodes, List.mem_filter, freeGPUs_pos_iff, Bool.and_eq_true, decide_eq_true_eq]

theorem freeGPUs_of_mem {nodes : List Node} {n : Node} (h : n ∈ freeNodes nodes) :
    freeGPUs n = n.gpuAvailable :=
  if_pos (freeGPUs_pos_iff.mp (mem_freeNodes.mp h).2).1

/-- The blocks that are not empty are equal when those of these nodes are. -/
theorem equal_freeBlocks_iff {nodes : List Node} :
    (∀ x ∈ freeBlocks nodes, ∀ y ∈ freeBlocks nodes, 0 < x → 0 < y → x = y) ↔
      ∀ n ∈ freeNodes nodes, ∀ m ∈ freeNodes nodes, n.gpuAvailable = m.gpuAvailable := by
  constructor
  · intro heq n hn m hm
    obtain ⟨hn', hpos⟩ := mem_freeNodes.mp hn
    obtain ⟨hm', hpos'⟩ := mem_freeNodes.mp hm
    have hcast := heq _ (List.mem_map_of_mem hn') _ (List.mem_map_of_mem hm')
      (by exact_mod_cast hpos) (by exact_mod_cast hpos')
    rw [← freeGPUs_of_mem hn, ← freeGPUs_of_mem hm]
    exact_mod_cast hcast
  · intro heq x hx y hy hxpos hypos
    obtain ⟨n, hn, rfl⟩ := List.mem_map.mp hx
    obtain ⟨m, hm, rfl⟩ := List.mem_map.mp hy
    have hn' : n ∈ freeNodes nodes := mem_freeNodes.mpr ⟨hn, by exact_mod_cast hxpos⟩
    have hm' : m ∈ freeNodes nodes := mem_freeNodes.mpr ⟨hm, by exact_mod_cast hypos⟩
    rw [freeGPUs_of_mem hn', freeGPUs_of_mem hm', heq n hn' m hm']

/-- Move `d` free GPUs from the `j`-th node of the list to the `i`-th. -/
def moveFree (nodes : List Node) (i j : Fin nodes.length) (d : Int) : List Node :=
  (nodes.set i { nodes[i] with gpuAvailable := nodes[i].gpuAvailable + d }).set j
    { nodes[j] with gpuAvailable := nodes[j].gpuAvailable - d }

/-- Between schedulable nodes, this shifts free GPUs from one block to another. -/
theorem freeBlocks_moveFree {nodes : List Node} {i j : Fin nodes.length}
    (hi : nodes[i].status.schedulable = true) (hj : nodes[j].status.schedulable = true) (d : Int) :
    freeBlocks (moveFree nodes i j d) =
      ((freeBlocks nodes).set i ((nodes[i].gpuAvailable : ℚ) + d)).set j
        ((nodes[j].gpuAvailable : ℚ) - d) := by
  rw [freeBlocks, moveFree, List.map_set, List.map_set, ← freeBlocks, freeGPUs, if_pos hi, freeGPUs,
    if_pos hj]
  push_cast
  rfl

theorem getElem?_freeBlocks {nodes : List Node} {k : Fin nodes.length}
    (hk : nodes[k].status.schedulable = true) :
    (freeBlocks nodes)[(k : ℕ)]? = some (nodes[k].gpuAvailable : ℚ) := by
  rw [freeBlocks, List.getElem?_map, List.getElem?_eq_getElem k.isLt, Option.map_some, freeGPUs]
  exact congrArg some (congrArg Int.cast (if_pos hk))

/-- Filling up a node with the largest free block lowers the index. -/
theorem fragmentation_moveFree_lt {nodes : List Node} (hfree : ∀ n ∈ nodes, 0 ≤ n.gpuAvailable)
    {i j : Fin nodes.length} {d : Int} (hij : i ≠ j) (hi : nodes[i].status.schedulable = true)
    (hj : nodes[j].status.schedulable = true)
    (hmax : ∀ n ∈ nodes, n.status.schedulable = true → n.gpuAvailable ≤ nodes[i].gpuAvailable)
    (hd : 0 < d) (hle : d ≤ nodes[j].gpuAvailable) :
    fragmentation (moveFree nodes i j d) < fragmentation nodes := by
  rw [fragmentation_eq_spread, fragmentation_eq_spread, freeBlocks_moveFree hi hj]
  apply spread_shift_lt (freeBlocks_nonneg hfree) (getElem?_freeBlocks hi) (getElem?_freeBlocks hj)
  · exact fun heq ↦ hij (Fin.ext heq)
  · intro x hx
    obtain ⟨n, hn, rfl⟩ := List.mem_map.mp hx
    rw [freeGPUs]
    split
    · rename_i hn'
      exact_mod_cast hmax n hn hn'
    · exact_mod_cast hfree _ (List.getElem_mem i.isLt)
  · exact_mod_cast hd
  · exact_mod_cast hle

/-- **The fragmentation index means what it says.**  With `k` schedulable nodes that have a free GPU
it lies between 0 and `1 - 1 / k`; it is 0 when `k ≤ 1` and only then; it is `1 - 1 / k` when these
nodes have equally many and only then; it depends neither on the order of the nodes nor on those
that are not schedulable; and moving free GPUs from another schedulable node to one with the largest
free block lowers it. -/
theorem fragmentation_meaning (nodes : List Node) (hfree : ∀ n ∈ nodes, 0 ≤ n.gpuAvailable) :
    0 ≤ fragmentation nodes ∧
    (1 ≤ (freeNodes nodes).length → fragmentation nodes ≤ 1 - 1 / (freeNodes nodes).length) ∧
    ((freeNodes nodes).length = 0 → fragmentation nodes = 0) ∧
    (fragmentation nodes = 0 ↔ (freeNodes nodes).length ≤ 1) ∧
    (1 ≤ (freeNodes nodes).length →
      (fragmentation nodes = 1 - 1 / (freeNodes nodes).length ↔
        ∀ n ∈ freeNodes nodes, ∀ m ∈ freeNodes nodes, n.gpuAvailable = m.gpuAvailable)) ∧
    (∀ nodes' : List Node, (nodes'.filter fun n ↦ n.status.schedulable).Perm
        (nodes.filter fun n ↦ n.status.schedulable) →
      fragmentation nodes' = fragmentation nodes) ∧
    ∀ (i j : Fin nodes.length) (d : Int), i ≠ j → nodes[i].status.schedulable = true →
      nodes[j].status.schedulable = true →
      (∀ n ∈ nodes, n.status.schedulable = true → n.gpuAvailable ≤ nodes[i].gpuAvailable) →
      0 < d → d ≤ nodes[j].gpuAvailable →
      fragmentation (moveFree nodes i j d) < fragmentation nodes := by
  have hblocks := freeBlocks_nonneg hfree
  have hzero := spread_eq_zero_iff hblocks
  have hequal := spread_eq_iff hblocks
  rw [equal_freeBlocks_iff] at hequal
  rw [← holders_freeBlocks, fragmentation_eq_spread]
  refine ⟨spread_nonneg hblocks, spread_le hblocks, ?_, hzero, hequal, ?_, ?_⟩
  · intro hnone
    exact hzero.mpr (hnone ▸ Nat.zero_le 1)
  · intro nodes' hperm
    rw [← fragmentation_eq_spread]
    exact fragmentation_eq_of_perm hperm
  · intro i j d hij hi hj hmax hd hle
    rw [← fragmentation_eq_spread]
    exact fragmentation_moveFree_lt hfree hij hi hj hmax hd hle

/-- Two nodes with two free GPUs each, and one of these GPUs moved to the other node. -/
theorem fragmentation_meaning_halves :
    fragmentation (moveFree [Small.node "a" .ready 4 2, Small.node "b" .ready 4 2] 0 1 1) <
        fragmentation [Small.node "a" .ready 4 2, Small.node "b" .ready 4 2] ∧
      fragmentation [Small.node "a" .ready 4 2, Small.node "b" .ready 4 2] = 1 / 2 := by
  obtain ⟨-, -, -, -, hequal, -, hmove⟩ :=
    fragmentation_meaning [Small.node "a" .ready 4 2, Small.node "b" .ready 4 2] (by decide)
  constructor
  · apply hmove <;> decide
  · rw [(hequal (by decide)).mpr (by decide)]
    decide +kernel

end Scheduler

end GpuScheduler
