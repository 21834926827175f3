import GpuScheduler.Lib.Search
import GpuScheduler.Models.Node
import Mathlib.Algebra.Ring.Int.Defs

/-!
# Placement and ordering primitives

`internal/scheduler/placement.go`: the two searches for a node, and the submission order of jobs.
A search returns the node together with the reason recorded for it, or the reason why there is
none.
-/

namespace GpuScheduler.Scheduler

open Lib Models

/-- The reason both searches give when they find nothing. -/
def noNode : String := "no node satisfies the resource request"

/-- The first node that fits. -/
def firstFitNode (job : Job) (nodes : List Node) : Except String (Node × String) :=
  match nodes.find? fun n ↦ n.fits job.resourceRequest with
  | some n => .ok (n, s!"first-fit: node {n.hostname} has {n.gpuAvailable} free GPUs")
  | none => .error noNode

/-- The resources left over on a candidate node, compared in this order. -/
structure ScoreVec where
  gpu : Int
  cpu : Int
  mem : Int
deriving DecidableEq, Repr

/-- Lexicographic comparison of leftovers. -/
def ScoreVec.less (a b : ScoreVec) : Bool :=
  if a.gpu ≠ b.gpu then a.gpu < b.gpu
  else if a.cpu ≠ b.cpu then a.cpu < b.cpu
  else a.mem < b.mem

/-- What placing the request would leave on the node. -/
def leftover (n : Node) (req : ResourceRequest) : ScoreVec :=
  ⟨n.gpuAvailable - req.gpu, n.cpuAvailable - req.cpu, n.memoryAvailable - req.memoryGB⟩

/-- One turn of the best-fit loop: `best` is the best node so far, with its score. -/
def bestFitStep (req : ResourceRequest) (best : Option Node × ScoreVec) (n : Node) :
    Option Node × ScoreVec :=
  if !n.fits req then best
  else if best.1.isNone || (leftover n req).less best.2 then (some n, leftover n req)
  else best

/-- The node that leaves the least headroom after placement. -/
def bestFitNode (job : Job) (nodes : List Node) : Except String (Node × String) :=
  match nodes.foldl (bestFitStep job.resourceRequest) (none, ⟨2 ^ 30, 2 ^ 30, 2 ^ 30⟩) with
  | (some n, score) =>
      .ok (n, s!"best-fit: node {n.hostname} leaves {score.gpu} GPUs free (tightest pack)")
  | (none, _) => .error noNode

/-- Order jobs by submission time. -/
def byCreatedAt (jobs : List Job) : List Job :=
  sliceStable (fun a b ↦ a.createdAt < b.createdAt) jobs

/-! ## First fit -/

theorem firstFitNode_ok {job : Job} {nodes : List Node} {n : Node} {reason : String}
    (h : firstFitNode job nodes = .ok (n, reason)) :
    n ∈ nodes ∧ n.fits job.resourceRequest = true := by
  rw [firstFitNode] at h
  split at h
  · rename_i n' hn
    simp only [Except.ok.injEq, Prod.mk.injEq] at h
    obtain ⟨rfl, -⟩ := h
    exact ⟨List.mem_of_find?_eq_some hn, by simpa using List.find?_some hn⟩
  · cases h

theorem firstFitNode_error {job : Job} {nodes : List Node} {why : String}
    (h : firstFitNode job nodes = .error why) :
    ∀ n ∈ nodes, n.fits job.resourceRequest = false := by
  rw [firstFitNode] at h
  split at h
  · cases h
  · rename_i hnone
    intro n hn
    exact Bool.eq_false_iff.mpr (List.find?_eq_none.mp hnone n hn)

/-! ## Best fit

The loop of `bestFitNode` is the search for the first best of the nodes that fit, ranked by what the
request would leave on them.  It carries the score of its node along and starts from a score that
stands for none; the start is never compared with anything.
-/

/-- The three leftovers, in the lexicographic order. -/
def ScoreVec.rank (v : ScoreVec) : ℤ ×ₗ ℤ ×ₗ ℤ := toLex (v.gpu, toLex (v.cpu, v.mem))

theorem ScoreVec.rankedBy : RankedBy ScoreVec.less ScoreVec.rank := by
  intro a b
  rw [ScoreVec.less, ite_ne_eq_true_iff ne_of_lt, ite_ne_eq_true_iff ne_of_lt, decide_eq_true_eq,
    rank, rank, Prod.Lex.toLex_lt_toLex, Prod.Lex.toLex_lt_toLex]

theorem ScoreVec.rank_injective : Function.Injective ScoreVec.rank := by
  intro a b h
  simp only [rank, EmbeddingLike.apply_eq_iff_eq, Prod.mk.injEq] at h
  obtain ⟨hgpu, hcpu, hmem⟩ := h
  cases a
  cases b
  subst hgpu hcpu hmem
  rfl

/-- A node is a candidate when it fits. -/
def candidate (req : ResourceRequest) (n : Node) : Option Node :=
  if n.fits req then some n else none

theorem candidate_eq_some {req : ResourceRequest} {n m : Node} :
    candidate req n = some m ↔ n = m ∧ n.fits req = true := by
  rw [candidate]
  split <;> simp_all

theorem candidate_eq_none {req : ResourceRequest} {n : Node} :
    candidate req n = none ↔ n.fits req = false := by
  rw [candidate]
  split <;> simp_all

/-- The node that the search ends with. -/
def tightest (req : ResourceRequest) (nodes : List Node) : Option Node :=
  nodes.foldl (keepBest (candidate req) fun a b ↦ (leftover a req).less (leftover b req)) none

/-- One turn of the loop is one turn of the search, and the score stays that of the node. -/
theorem bestFitStep_eq_keepBest {req : ResourceRequest} {best : Option Node × ScoreVec} {n : Node}
    (hscore : ∀ m, best.1 = some m → best.2 = leftover m req) :
    (bestFitStep req best n).1 = keepBest (candidate req)
      (fun a b ↦ (leftover a req).less (leftover b req)) best.1 n ∧
    ∀ m, (bestFitStep req best n).1 = some m → (bestFitStep req best n).2 = leftover m req := by
  obtain ⟨best, score⟩ := best
  rw [bestFitStep, keepBest, candidate]
  by_cases hfits : n.fits req = true
  · cases best with
    | none => simp [hfits]
    | some b =>
        have hb : score = leftover b req := hscore b rfl
        subst hb
        by_cases hless : (leftover n req).less (leftover b req) = true <;> simp [hfits, hless]
  · simpa [hfits] using hscore

/-- The loop is the search. -/
theorem foldl_bestFitStep (req : ResourceRequest) (nodes : List Node)
    (best : Option Node × ScoreVec) (hscore : ∀ m, best.1 = some m → best.2 = leftover m req) :
    (nodes.foldl (bestFitStep req) best).1 = nodes.foldl (keepBest (candidate req)
      fun a b ↦ (leftover a req).less (leftover b req)) best.1 ∧
    ∀ m, (nodes.foldl (bestFitStep req) best).1 = some m →
      (nodes.foldl (bestFitStep req) best).2 = leftover m req := by
  induction nodes generalizing best with
  | nil => exact ⟨rfl, hscore⟩
  | cons n nodes ih =>
      obtain ⟨hstep, hscore'⟩ := bestFitStep_eq_keepBest (n := n) hscore
      rw [List.foldl_cons, List.foldl_cons, ← hstep]
      exact ih _ hscore'

/-- What `bestFitNode` answers when the search has ended. -/
def tightestPack (req : ResourceRequest) : Option Node → Except String (Node × String)
  | some n =>
      let score := leftover n req
      .ok (n, s!"best-fit: node {n.hostname} leaves {score.gpu} GPUs free (tightest pack)")
  | none => .error noNode

theorem bestFitNode_eq (job : Job) (nodes : List Node) :
    bestFitNode job nodes =
      tightestPack job.resourceRequest (tightest job.resourceRequest nodes) := by
  obtain ⟨hnode, hscore⟩ := foldl_bestFitStep job.resourceRequest nodes
    (none, ⟨2 ^ 30, 2 ^ 30, 2 ^ 30⟩) fun _ h ↦ by cases h
  rw [bestFitNode, tightest, ← hnode]
  split
  · rename_i n score heq
    rw [heq] at hscore ⊢
    cases hscore n rfl
    rfl
  · rename_i score heq
    rw [heq]
    rfl

theorem tightest_eq_none {req : ResourceRequest} {nodes : List Node} :
    tightest req nodes = none ↔ ∀ n ∈ nodes, n.fits req = false := by
  rw [tightest, foldl_keepBest_eq_none]
  simp only [candidate_eq_none]

theorem firstBest_of_tightest {req : ResourceRequest} {nodes : List Node} {n : Node}
    (h : tightest req nodes = some n) :
    FirstBest (candidate req) (fun n ↦ (leftover n req).rank) nodes n :=
  FirstBest.of_foldl (fun a b ↦ ScoreVec.rankedBy (leftover a req) (leftover b req)) h

/-- A node that `bestFitNode` returns is the first best one. -/
theorem firstBest_of_bestFitNode {job : Job} {nodes : List Node} {n : Node} {reason : String}
    (h : bestFitNode job nodes = .ok (n, reason)) :
    FirstBest (candidate job.resourceRequest) (fun n ↦ (leftover n job.resourceRequest).rank)
      nodes n := by
  rw [bestFitNode_eq] at h
  cases hbest : tightest job.resourceRequest nodes with
  | none =>
      rw [hbest] at h
      cases h
  | some m =>
      rw [hbest] at h
      cases h
      exact firstBest_of_tightest hbest

theorem bestFitNode_ok {job : Job} {nodes : List Node} {n : Node} {reason : String}
    (h : bestFitNode job nodes = .ok (n, reason)) :
    n ∈ nodes ∧ n.fits job.resourceRequest = true := by
  obtain ⟨m, hm, hcand⟩ := (firstBest_of_bestFitNode h).exists_mem
  obtain ⟨rfl, hfits⟩ := candidate_eq_some.mp hcand
  exact ⟨hm, hfits⟩

theorem bestFitNode_error {job : Job} {nodes : List Node} {why : String}
    (h : bestFitNode job nodes = .error why) : ∀ n ∈ nodes, n.fits job.resourceRequest = false := by
  rw [bestFitNode_eq] at h
  rw [← tightest_eq_none]
  cases hbest : tightest job.resourceRequest nodes with
  | none => rfl
  | some m =>
      rw [hbest] at h
      cases h

/-- A search that answers with a fitting node, or with an error when none fits, succeeds just when
some node fits. -/
theorem exists_ok_iff {nodes : List Node} {req : ResourceRequest}
    {found : Except String (Node × String)}
    (hok : ∀ n reason, found = .ok (n, reason) → n ∈ nodes ∧ n.fits req = true)
    (herror : ∀ why, found = .error why → ∀ n ∈ nodes, n.fits req = false) :
    (∃ r, found = .ok r) ↔ ∃ n ∈ nodes, n.fits req = true := by
  constructor
  · rintro ⟨⟨n, reason⟩, hr⟩
    exact ⟨n, hok n reason hr⟩
  · rintro ⟨n, hn, hfits⟩
    cases hfound : found with
    | ok r => exact ⟨r, rfl⟩
    | error why =>
        rw [herror why hfound n hn] at hfits
        cases hfits

/-- Without ties the order in which the nodes are listed does not matter. -/
theorem tightest_eq_of_perm {req : ResourceRequest} {nodes nodes' : List Node}
    (hperm : nodes'.Perm nodes)
    (hdistinct : ∀ m ∈ nodes, ∀ m' ∈ nodes, m.fits req = true → m'.fits req = true →
      leftover m req = leftover m' req → m = m') :
    tightest req nodes' = tightest req nodes := by
  cases htight : tightest req nodes with
  | none =>
      rw [tightest_eq_none] at htight ⊢
      intro n hn
      exact htight n (hperm.mem_iff.mp hn)
  | some n =>
      cases htight' : tightest req nodes' with
      | none =>
          rw [tightest_eq_none] at htight'
          obtain ⟨m, hm, hcand⟩ := (firstBest_of_tightest htight).exists_mem
          have hnot := htight' m (hperm.mem_iff.mpr hm)
          rw [(candidate_eq_some.mp hcand).2] at hnot
          cases hnot
      | some n' =>
          rw [(firstBest_of_tightest htight).eq_of_perm (firstBest_of_tightest htight') hperm]
          intro x hx y hy d e hd he hrank
          obtain ⟨rfl, hxfits⟩ := candidate_eq_some.mp hd
          obtain ⟨rfl, hyfits⟩ := candidate_eq_some.mp he
          exact hdistinct x hx y hy hxfits hyfits (ScoreVec.rank_injective hrank)

/-- **Best fit is optimal**: it finds a node exactly when first fit does, which is when some node
fits; the node fits, no fitting node has a smaller leftover in the lexicographic order, every
fitting node in front of it has a larger one; and when no two fitting nodes have the same leftover,
the order in which the nodes are listed does not matter. -/
theorem bestFitNode_optimal (job : Job) (nodes : List Node) :
    ((∃ r, bestFitNode job nodes = .ok r) ↔ ∃ r, firstFitNode job nodes = .ok r) ∧
    ((∃ r, bestFitNode job nodes = .ok r) ↔ ∃ n ∈ nodes, n.fits job.resourceRequest = true) ∧
    (∀ n reason, bestFitNode job nodes = .ok (n, reason) →
      n.fits job.resourceRequest = true ∧
      (∀ m ∈ nodes, m.fits job.resourceRequest = true →
        (leftover n job.resourceRequest).rank ≤ (leftover m job.resourceRequest).rank) ∧
      ∃ before behind, nodes = before ++ n :: behind ∧
        ∀ m ∈ before, m.fits job.resourceRequest = true →
          (leftover n job.resourceRequest).rank < (leftover m job.resourceRequest).rank) ∧
    ((∀ m ∈ nodes, ∀ m' ∈ nodes, m.fits job.resourceRequest = true →
        m'.fits job.resourceRequest = true →
        leftover m job.resourceRequest = leftover m' job.resourceRequest → m = m') →
      ∀ nodes', nodes'.Perm nodes → bestFitNode job nodes' = bestFitNode job nodes) := by
  have hbest : (∃ r, bestFitNode job nodes = .ok r) ↔
      ∃ n ∈ nodes, n.fits job.resourceRequest = true :=
    exists_ok_iff (fun _ _ ↦ bestFitNode_ok) fun _ ↦ bestFitNode_error
  have hfirst : (∃ r, firstFitNode job nodes = .ok r) ↔
      ∃ n ∈ nodes, n.fits job.resourceRequest = true :=
    exists_ok_iff (fun _ _ ↦ firstFitNode_ok) fun _ ↦ firstFitNode_error
  refine ⟨hbest.trans hfirst.symm, hbest, ?_, ?_⟩
  · intro n reason h
    have hfb := firstBest_of_bestFitNode h
    refine ⟨(bestFitNode_ok h).2, ?_, ?_⟩
    · intro m hm hfits
      exact hfb.le hm (candidate_eq_some.mpr ⟨rfl, hfits⟩)
    · obtain ⟨before, x, behind, heq, hx, hbefore, -⟩ := hfb
      obtain ⟨rfl, -⟩ := candidate_eq_some.mp hx
      refine ⟨before, behind, heq, ?_⟩
      intro m hm hfits
      exact hbefore m hm m (candidate_eq_some.mpr ⟨rfl, hfits⟩)
  · intro hdistinct nodes' hperm
    rw [bestFitNode_eq, bestFitNode_eq, tightest_eq_of_perm hperm hdistinct]

end GpuScheduler.Scheduler
