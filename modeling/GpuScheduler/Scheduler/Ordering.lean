import GpuScheduler.Scheduler.Strategies

/-!
# What the orderings guarantee

Each of the four algorithms sorts the queue by one comparison, `Algorithm.less`, and each of these
comparisons ranks the jobs by up to three keys: the share of the team, the effective priority, and
the time of submission.  From that the queue is sorted, jobs that tie stay in the order in which the
store listed them, and the listing does not matter at all when no two jobs were submitted at the
same time.
-/

namespace GpuScheduler.Scheduler

open Lib Models

namespace Algorithm

variable {alg : Algorithm} {now : Time} {ctx : OrderContext}

/-- The comparison by which an algorithm sorts. -/
def less (alg : Algorithm) (now : Time) (ctx : OrderContext) (a b : Job) : Bool :=
  match alg with
  | firstFit => a.createdAt < b.createdAt
  | bestFit => a.createdAt < b.createdAt
  | priority => priorityLess now ctx a b
  | fairShare => fairShareLess now ctx a b

theorem order_eq_sliceStable (alg : Algorithm) (now : Time) (jobs : List Job)
    (ctx : OrderContext) : alg.order now jobs ctx = sliceStable (alg.less now ctx) jobs := by
  cases alg <;> rfl

/-- Under aging, the higher effective priority goes first, and the earlier of two equals. -/
def AgedAhead (now : Time) (ctx : OrderContext) (a b : Job) : Prop :=
  effectivePriority b now ctx.agingFactor < effectivePriority a now ctx.agingFactor ∨
    effectivePriority a now ctx.agingFactor = effectivePriority b now ctx.agingFactor ∧
      a.createdAt < b.createdAt

/-- Job `a` is to be attempted before job `b`: it was submitted earlier; or it goes first under
aging; or its team has the lower share, and between teams with equal shares it goes first under
aging. -/
def Ahead (alg : Algorithm) (now : Time) (ctx : OrderContext) (a b : Job) : Prop :=
  match alg with
  | firstFit | bestFit => a.createdAt < b.createdAt
  | priority => AgedAhead now ctx a b
  | fairShare => ctx.share a.teamID < ctx.share b.teamID ∨
      ctx.share a.teamID = ctx.share b.teamID ∧ AgedAhead now ctx a b

/-- The keys that an algorithm compares in turn.  An algorithm that does not look at a key gives
all jobs the same. -/
def rank (alg : Algorithm) (now : Time) (ctx : OrderContext) (j : Job) : ℚ ×ₗ ℤᵒᵈ ×ₗ ℤ :=
  match alg with
  | firstFit | bestFit => toLex (0, toLex (OrderDual.toDual 0, j.createdAt))
  | priority => toLex (0, toLex (OrderDual.toDual (effectivePriority j now ctx.agingFactor),
      j.createdAt))
  | fairShare => toLex (ctx.share j.teamID,
      toLex (OrderDual.toDual (effectivePriority j now ctx.agingFactor), j.createdAt))

/-- The rank says who is ahead. -/
theorem rank_lt_rank_iff {a b : Job} :
    alg.rank now ctx a < alg.rank now ctx b ↔ alg.Ahead now ctx a b := by
  cases alg <;> simp [rank, Ahead, AgedAhead, Prod.Lex.toLex_lt_toLex]

theorem less_iff_ahead {a b : Job} :
    alg.less now ctx a b = true ↔ alg.Ahead now ctx a b := by
  have haged : priorityLess now ctx a b = true ↔ AgedAhead now ctx a b := by
    simp only [priorityLess]
    rw [ite_ne_eq_true_iff ne_of_gt, decide_eq_true_eq]
    rfl
  cases alg with
  | firstFit => exact decide_eq_true_iff
  | bestFit => exact decide_eq_true_iff
  | priority => exact haged
  | fairShare =>
      simp only [less, fairShareLess]
      rw [ite_ne_eq_true_iff ne_of_lt, haged]
      rfl

/-- Each comparison is a strict weak order. -/
theorem rankedBy (alg : Algorithm) (now : Time) (ctx : OrderContext) :
    RankedBy (alg.less now ctx) (alg.rank now ctx) := by
  intro a b
  rw [less_iff_ahead, rank_lt_rank_iff]

instance : DecidableRel (alg.Ahead now ctx) := fun _ _ ↦ decidable_of_iff _ less_iff_ahead

/-- Two jobs of which neither is ahead of the other. -/
def Ties (alg : Algorithm) (now : Time) (ctx : OrderContext) (a b : Job) : Prop :=
  ¬ alg.Ahead now ctx a b ∧ ¬ alg.Ahead now ctx b a

instance : DecidableRel (alg.Ties now ctx) := fun _ _ ↦ instDecidableAnd

theorem ties_iff {a b : Job} :
    alg.Ties now ctx a b ↔ alg.rank now ctx a = alg.rank now ctx b := by
  rw [Ties, ← rank_lt_rank_iff, ← rank_lt_rank_iff, not_lt, not_lt, and_comm, le_antisymm_iff]

/-- The time of submission is a key of every algorithm. -/
theorem createdAt_eq_of_rank_eq {a b : Job} (h : alg.rank now ctx a = alg.rank now ctx b) :
    a.createdAt = b.createdAt := by
  cases alg with
  | firstFit | bestFit | priority | fairShare =>
      simp only [rank, EmbeddingLike.apply_eq_iff_eq, Prod.mk.injEq] at h
      exact h.2.2

/-- **Ordering**: every algorithm returns all jobs, none of them behind a job that it is ahead of;
the jobs that tie with one another stay in the order in which they were given; and when no two jobs
were submitted at the same time, the order in which they were given does not matter. -/
theorem order_sorted_stable_canonical (alg : Algorithm) (now : Time) (ctx : OrderContext)
    (jobs : List Job) :
    (alg.order now jobs ctx).Perm jobs ∧
    (alg.order now jobs ctx).Pairwise (fun a b ↦ ¬ alg.Ahead now ctx b a) ∧
    (∀ job, (alg.order now jobs ctx).filter (alg.Ties now ctx job ·) =
      jobs.filter (alg.Ties now ctx job ·)) ∧
    ((jobs.map Job.createdAt).Nodup → ∀ jobs', jobs'.Perm jobs →
      alg.order now jobs' ctx = alg.order now jobs ctx) := by
  have hrank := alg.rankedBy now ctx
  refine ⟨order_perm alg now jobs ctx, ?_, ?_, ?_⟩
  · rw [order_eq_sliceStable]
    refine (pairwise_sliceStable hrank jobs).imp ?_
    intro a b hab
    rw [← rank_lt_rank_iff, not_lt]
    exact hab
  · intro job
    rw [order_eq_sliceStable]
    apply filter_sliceStable hrank
    intro a b ha hb
    rw [decide_eq_true_eq, ties_iff] at ha hb
    exact ha.symm.trans hb
  · intro hdistinct jobs' hperm
    rw [order_eq_sliceStable, order_eq_sliceStable]
    apply sliceStable_eq_of_perm hrank hperm
    intro a ha b hb hab
    exact List.inj_on_of_nodup_map hdistinct ha hb (createdAt_eq_of_rank_eq hab)

/-- A job that is ahead of another comes before it. -/
theorem comesBefore_order {jobs : List Job} {a b : Job} (ha : a ∈ jobs) (hb : b ∈ jobs)
    (hab : alg.Ahead now ctx a b) : ComesBefore (alg.order now jobs ctx) a b := by
  rw [order_eq_sliceStable]
  exact comesBefore_sliceStable (alg.rankedBy now ctx) ha hb (rank_lt_rank_iff.mpr hab)

end Algorithm

end GpuScheduler.Scheduler
