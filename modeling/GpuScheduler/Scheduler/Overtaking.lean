import GpuScheduler.Concurrent.OperationSpec
import GpuScheduler.Scheduler.Ordering
import GpuScheduler.Scheduler.PassSpec
import Mathlib.Data.Rat.Floor
import Mathlib.Tactic.Linarith

/-!
# How long a job can be overtaken

Under `Priority.Order` a job gains as many points per minute as any other job that waits, so the
lead that an earlier job has from its longer wait never changes.  Once this lead makes up for the
difference between the priorities, the earlier job goes first, whenever the queue is ordered.

Submission confines priorities to 0..10, and no operation changes them.  A job of priority `p`
can therefore be overtaken only by the jobs that are submitted within the `(10 - p) / f` minutes
that follow its own submission, where `f` is the aging factor (`aging_bounds_overtaking`).
-/

namespace GpuScheduler

open Lib Models Scheduler

/-- The minutes from one time to another. -/
def minutesBetween (a b : Time) : ℚ := (b - a : Int) / 60000000000

theorem minutesBetween_nonneg {a b : Time} (h : a ≤ b) : 0 ≤ minutesBetween a b := by
  apply div_nonneg _ (by norm_num)
  exact_mod_cast sub_nonneg.mpr h

theorem minutesBetween_add (a b c : Time) :
    minutesBetween a b + minutesBetween b c = minutesBetween a c := by
  simp only [minutesBetween]
  push_cast
  ring

namespace Scheduler

variable {now : Time} {ctx : OrderContext} {a b : Job}

/-- What a job that was submitted by now has gained by waiting. -/
theorem effectivePriority_of_le {j : Job} {f : ℚ} (hf : 0 ≤ f) (h : j.createdAt ≤ now) :
    effectivePriority j now f = j.priority + ⌊minutesBetween j.createdAt now * f⌋ := by
  have hwait := minutesBetween_nonneg h
  simp only [effectivePriority, truncate]
  rw [← minutesBetween, if_neg hwait.not_gt, if_pos (mul_nonneg hwait hf)]
  rfl

/-- The lead in waiting time makes up for the difference between the priorities. -/
theorem agedAhead_of_lead (hf : 0 ≤ ctx.agingFactor) (hab : a.createdAt < b.createdAt)
    (hnow : b.createdAt ≤ now)
    (hlead : (b.priority - a.priority : ℚ) ≤
      ctx.agingFactor * minutesBetween a.createdAt b.createdAt) :
    Algorithm.AgedAhead now ctx a b := by
  have hle : effectivePriority b now ctx.agingFactor ≤
      effectivePriority a now ctx.agingFactor := by
    rw [effectivePriority_of_le hf hnow, effectivePriority_of_le hf (hab.le.trans hnow)]
    -- in whole points, `a` has gained at least what `b` has gained and the difference
    have hgain : minutesBetween b.createdAt now * ctx.agingFactor +
        ((b.priority - a.priority : Int) : ℚ) ≤
          minutesBetween a.createdAt now * ctx.agingFactor := by
      rw [← minutesBetween_add a.createdAt b.createdAt now]
      push_cast
      linarith
    have hfloor := Int.floor_mono hgain
    rw [Int.floor_add_intCast] at hfloor
    omega
  rcases hle.lt_or_eq with hlt | heq
  · exact Or.inl hlt
  · exact Or.inr ⟨heq.symm, hab⟩

end Scheduler

/-! ## Priorities are confined -/

/-- The priority is one that a submission can have. -/
def Models.Job.Clamped (j : Job) : Prop := 0 ≤ j.priority ∧ j.priority ≤ 10

theorem Api.clamped_job (r : Api.SubmitJobRequest) (newID : String) (now : Time) (retries : Int) :
    (r.job newID now retries).Clamped := by
  show 0 ≤ Api.clamp r.priority 0 10 ∧ Api.clamp r.priority 0 10 ≤ 10
  rw [Api.clamp]
  split
  · decide
  · split <;> omega

/-- No call changes a job's priority. -/
theorem Call.priority_onJob (c : Call) (now : Time) (j : Job) :
    (c.onJob now j).priority = j.priority := by
  cases c with
  | jobsUpdateStatus _ _ | jobsSchedule _ _ | jobsRequeue _ _ =>
      simp only [onJob]
      split <;> rfl
  | _ => rfl

/-- A call that creates no job, or one with a confined priority. -/
def CreatesClamped (c : Call) : Prop := ∀ j, c = .jobsCreate j → j.Clamped

/-- Every operation creates such jobs only. -/
theorem Operation.issues_createsClamped (op : Operation) :
    op.thread.Issues fun _ c ↦ CreatesClamped c := by
  rcases op.issues with hop | ⟨e, clock, rfl⟩ | ⟨req, rfl⟩ | ⟨id, rfl⟩
  · refine hop.mono ?_
    rintro m c ⟨-, hc⟩ j rfl
    obtain ⟨req, newID, now, retries, -, rfl⟩ := hc.eq_submit
    exact Api.clamped_job req newID now retries
  · apply ((e.issues_tick clock).mono _).thread
    rintro c hc j rfl
    exact absurd hc (by simp [OfPass, OfRecovery, OfScheduling])
  · apply ((Grpc.issues_updateJobStatus req).mono _).thread
    rintro c hc j rfl
    exact absurd hc id
  · apply ((Api.issues_handleCancelJob id).mono _).thread
    rintro c hc j rfl
    exact hc.elim

/-- Whatever operations are in progress, and whichever of their calls fail, priorities stay
confined. -/
theorem clamped_of_reach {admits : Pool.Policy Operation Call Mem Store Env} {s : Store}
    {P : Plane Store} (h : Pool.Reach onStore admits Starts ⟨[], s⟩ P)
    (hs : ∀ j ∈ s.jobs.rows, j.Clamped) : ∀ j ∈ P.shared.jobs.rows, j.Clamped := by
  apply h.inv_of_issues (I := fun t ↦ ∀ j ∈ t.jobs.rows, j.Clamped) (K := CreatesClamped) hs
  · rintro op p rfl
    exact op.issues_createsClamped
  · intro i op c env t hc ht
    refine Store.forall_jobs_exec ht ?_ ?_
    · intro j hj
      rw [Models.Job.Clamped, Call.priority_onJob]
      exact ht j hj
    · intro j hcreate
      exact hc j hcreate

/-- **Aging bounds overtaking**: of two jobs in a queue, the one submitted earlier goes first as
soon as the aging factor times the minutes between their submissions makes up for the difference
between their priorities, under `Priority` and, for teams with equal shares, under `FairShare`.
With a positive factor, the jobs that go before one submitted earlier were therefore submitted less
than `(10 - priority) / factor` minutes after it, given that their priorities are at most 10; and
they are, in every store that the control plane reaches. -/
theorem aging_bounds_overtaking {ctx : OrderContext} {now : Time} {jobs : List Job} {a b : Job}
    (hf : 0 ≤ ctx.agingFactor) (ha : a ∈ jobs) (hb : b ∈ jobs) (hab : a.createdAt < b.createdAt)
    (hnow : b.createdAt ≤ now) :
    ((b.priority - a.priority : ℚ) ≤
        ctx.agingFactor * minutesBetween a.createdAt b.createdAt →
      ComesBefore (Algorithm.priority.order now jobs ctx) a b ∧
      (ctx.share a.teamID = ctx.share b.teamID →
        ComesBefore (Algorithm.fairShare.order now jobs ctx) a b)) ∧
    (0 < ctx.agingFactor → b.priority ≤ 10 →
      [b, a].Sublist (Algorithm.priority.order now jobs ctx) →
      minutesBetween a.createdAt b.createdAt < (10 - a.priority) / ctx.agingFactor) ∧
    ∀ P, Pool.Reach onStore (fun _ _ _ _ _ _ ↦ True) Starts ⟨[], Store.empty⟩ P →
      ∀ j ∈ P.shared.jobs.rows, 0 ≤ j.priority ∧ j.priority ≤ 10 := by
  have hfirst : (b.priority - a.priority : ℚ) ≤
      ctx.agingFactor * minutesBetween a.createdAt b.createdAt →
        ComesBefore (Algorithm.priority.order now jobs ctx) a b := by
    intro hlead
    exact Algorithm.comesBefore_order ha hb (agedAhead_of_lead hf hab hnow hlead)
  refine ⟨?_, ?_, ?_⟩
  · intro hlead
    refine ⟨hfirst hlead, ?_⟩
    intro hshare
    apply Algorithm.comesBefore_order ha hb
    exact Or.inr ⟨hshare, agedAhead_of_lead hf hab hnow hlead⟩
  · intro hpos hclamped hba
    by_contra hlate
    rw [not_lt, div_le_iff₀ hpos] at hlate
    refine (hfirst ?_).2 hba
    have hpriority : (b.priority : ℚ) ≤ 10 := by exact_mod_cast hclamped
    linarith
  · intro P hP
    exact clamped_of_reach hP fun _ hj ↦ absurd hj List.not_mem_nil

/-- A job of priority 0 that was submitted five minutes before one of priority 5 comes first, five
minutes later. -/
theorem aging_bounds_overtaking_five :
    ComesBefore (Algorithm.priority.order 600000000000
      [Small.job "b" .queued 5 1 "" 300000000000, Small.job "a" .queued 0 1 "" 0] ⟨[], 1⟩)
      (Small.job "a" .queued 0 1 "" 0) (Small.job "b" .queued 5 1 "" 300000000000) := by
  refine ((aging_bounds_overtaking ?_ ?_ ?_ ?_ ?_).1 ?_).1
  · decide
  · decide
  · decide
  · decide
  · decide
  · decide +kernel

end GpuScheduler
