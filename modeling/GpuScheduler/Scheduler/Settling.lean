import GpuScheduler.Scheduler.Trading
import GpuScheduler.Scheduler.WorkConserving

/-!
# Passes come to rest

A pass changes nothing exactly when every queued job has to wait (`Waits`): it fits on no node, and
if it may evict others then no eviction would make room for it.  Since passes can only make so many
placements, there is such a pass among enough of them (`passes_come_to_rest`).  Without preemption
the second pass is one already (`settled_without_preemption`).
-/

namespace GpuScheduler.Scheduler

open Lib Models

/-! ## What a pass at rest looks like -/

/-- The queued job has to wait: it fits on no node, and if it may evict others then on no ready node
would evicting all jobs of lower priority make room. -/
structure Waits (e : Engine) (now : Time) (s : Store) (j : Job) : Prop where
  fits : ∀ n ∈ s.nodes.rows, n.fits j.resourceRequest = false
  spared : e.cfg.enablePreemption = true → e.shouldPreempt j now = true →
    ∀ n ∈ s.nodes.rows, n.status = .ready → ¬ MakesRoom j n
      (eligible j (runningMap (s.listByStatuses [.scheduled, .running]) n.nodeID))

section Planner

variable {job : Job} {nodes : List Node} {running : String → List Job}

/-- The planner finds nothing exactly when evicting all lower jobs of a node makes room nowhere. -/
theorem findPreemption_none_iff (hreq : ∀ id, ∀ j ∈ running id, ∀ d, 0 ≤ j.request d) :
    findPreemption job nodes running = none ↔ ∀ n ∈ nodes, n.status = .ready →
      ¬ MakesRoom job n (eligible job (running n.nodeID)) := by
  constructor
  · intro h n hn hready hroom
    have hall : MakesRoom job n (evictionOrder job (running n.nodeID)) := by
      intro d
      rw [demand_perm (perm_evictionOrder _ _)]
      exact hroom d
    obtain ⟨vs, hplan, -⟩ := exists_planOn hready List.prefix_rfl hall
    rw [findPreemption_eq_none_iff.mp h n hn] at hplan
    cases hplan
  · intro h
    cases hplan : findPreemption job nodes running with
    | none => rfl
    | some plan =>
        obtain ⟨hn, hready, hshort⟩ := shortestPrefix_findPreemption hplan
        refine absurd (fun d ↦ (hshort.holds d).trans ?_) (h plan.node hn hready)
        have hle := demand_le_of_subperm (victims_subperm_eligible hplan)
          (fun j hj ↦ hreq _ j (List.mem_of_mem_filter hj)) d
        omega

end Planner

section Rest

variable {e : Engine} {clock : Clock} {s t : Store} {r : Except StoreError Unit} {l : List Call}
  {job : Job} {p : Pass}

/-- The jobs that are running ask for nothing negative. -/
theorem nonneg_running (hreq : s.NonnegRequests) (dead : List String) :
    ∀ id, ∀ j ∈ (passMem dead s).running id, ∀ d, 0 ≤ j.request d := by
  intro id j hj
  obtain ⟨hj, -⟩ := List.mem_filter.mp hj
  exact hreq j ((Listed.listByStatuses s).rows j hj).1

/-- A job has to wait exactly when a pass that has changed nothing gives it up at once. -/
theorem waits_iff (hreq : e.cfg.enablePreemption = true → s.NonnegRequests) (dead : List String) :
    Waits e clock.pass s job ↔ (∃ why, e.alg.place job (passMem dead s).nodes = .error why) ∧
      ((e.cfg.enablePreemption && e.shouldPreempt job clock.pass) = true →
        findPreemption job (passMem dead s).nodes (passMem dead s).running = none) := by
  have hnodes : ∀ n, n ∈ (passMem dead s).nodes ↔ n ∈ s.nodes.rows := fun n ↦ mem_sliceStable
  rw [Bool.and_eq_true]
  constructor
  · rintro ⟨hfits, hspared⟩
    refine ⟨?_, fun hen ↦ (findPreemption_none_iff (nonneg_running (hreq hen.1) dead)).mpr
      fun n hn ↦ hspared hen.1 hen.2 n ((hnodes n).mp hn)⟩
    rcases hp : e.alg.place job (passMem dead s).nodes with why | ⟨n, reason⟩
    · exact ⟨why, rfl⟩
    · obtain ⟨hn, hfit⟩ := Algorithm.place_ok hp
      rw [hfits n ((hnodes n).mp hn)] at hfit
      cases hfit
  · rintro ⟨⟨why, hp⟩, hspared⟩
    refine ⟨fun n hn ↦ Algorithm.place_error hp n ((hnodes n).mpr hn), fun hen hold n hn ↦ ?_⟩
    exact (findPreemption_none_iff (nonneg_running (hreq hen) dead)).mp (hspared ⟨hen, hold⟩) n
      ((hnodes n).mpr hn)

/-- The pass has recorded events only. -/
structure Idle (s : Store) (dead : List String) (p : Pass) : Prop where
  mem : p.mem = passMem dead s
  jobs : p.store.jobs = s.jobs
  nodes : p.store.nodes = s.nodes
  calls : placements p.calls = []

theorem Idle.giveUp {dead : List String} (h : Idle s dead p) (why : String) :
    Idle s dead (p.giveUp e job why) where
  mem := h.mem
  jobs := h.jobs
  nodes := h.nodes
  calls := by
    rw [Pass.giveUp, Pass.record, placements_append, h.calls]
    rfl

/-- An attempt that has to wait. -/
theorem Idle.attempt {dead : List String}
    (hreq : e.cfg.enablePreemption = true → s.NonnegRequests) (h : Idle s dead p)
    (hwaits : Waits e clock.pass s job) : Idle s dead (p.attempt e clock.pass job) := by
  obtain ⟨⟨why, hp⟩, hplan⟩ := (waits_iff hreq dead).mp hwaits
  rw [Pass.attempt, h.mem, hp]
  simp only
  split
  · rename_i hen
    rw [hplan hen]
    exact h.giveUp why
  · exact h.giveUp why

theorem Idle.start (dead : List String) {l : List Call} (hl : placements l = []) :
    Idle s dead ⟨passMem dead s, s, l ++ reads s⟩ where
  mem := rfl
  jobs := rfl
  nodes := rfl
  calls := by
    rw [placements_append, hl, placements_of_aside fun c hc ↦ aside_of_mem_reads hc]
    rfl

/-- **A pass leaves everything as it is when all queued jobs have to wait.** -/
theorem idle_of_waits (hreq : e.cfg.enablePreemption = true → s.NonnegRequests)
    (hwaits : ∀ j ∈ s.jobs.rows, j.status = .queued → Waits e clock.pass s j)
    (hlog : Logs Smooth (e.tick clock) s r l t) :
    t.jobs = s.jobs ∧ t.nodes = s.nodes ∧ placements l = [] := by
  obtain ⟨-, hend⟩ := tick_undisturbed hlog
  obtain ⟨rfl, rfl⟩ := Prod.mk.inj hend
  have h : Idle s [] (e.undisturbed clock [] [.nodesMarkStaleDown e.cfg.heartbeatTTL] s) ∧
      ∀ j ∈ [], Waits e clock.pass s j := Pass.run_induct_attempt
    (I := fun _ queue p ↦ Idle s [] p ∧ ∀ j ∈ queue, Waits e clock.pass s j)
    ⟨.start [] (l := [.nodesMarkStaleDown e.cfg.heartbeatTTL]) rfl, fun j hj ↦
      hwaits j (Engine.mem_queueOrder.mp hj).1 (Engine.mem_queueOrder.mp hj).2⟩
    fun done job queue p h ↦ ⟨h.1.attempt hreq (h.2 job List.mem_cons_self),
      fun j hj ↦ h.2 j (List.mem_cons_of_mem job hj)⟩
  exact ⟨h.1.jobs, h.1.nodes, h.1.calls⟩

/-- An attempt that places nothing is one that has to wait, unless it evicts in vain. -/
theorem waits_of_attempt (hreq : e.cfg.enablePreemption = true → s.NonnegRequests)
    {dead : List String} (h : Idle s dead p)
    (hwaste : ∀ plan why, findPreemption job p.mem.nodes p.mem.running = some plan →
      e.alg.place job (p.evict plan).mem.nodes ≠ .error why)
    (hnone : placements (p.attempt e clock.pass job).calls = []) :
    Waits e clock.pass s job := by
  have hsome : ∀ (q : Pass) node reason, placements (q.commit e job node reason).calls ≠ [] := by
    intro q node reason
    rw [(q.adds_commit e job node reason).calls, placements_append]
    exact List.append_ne_nil_of_right_ne_nil _ (List.cons_ne_nil _ _)
  rw [waits_iff hreq dead, ← h.mem]
  rw [Pass.attempt] at hnone
  cases hp : e.alg.place job p.mem.nodes with
  | ok r =>
      rw [hp] at hnone
      exact absurd hnone (hsome _ _ _)
  | error why =>
      refine ⟨⟨why, rfl⟩, fun hen ↦ ?_⟩
      cases hplan : findPreemption job p.mem.nodes p.mem.running with
      | none => rfl
      | some plan =>
          simp only [hp, hen, hplan, if_true] at hnone
          cases hp' : e.alg.place job (p.evict plan).mem.nodes with
          | ok r =>
              rw [hp'] at hnone
              exact absurd hnone (hsome _ _ _)
          | error why => exact absurd hp' (hwaste plan why hplan)

/-- The placements of a pass only grow. -/
theorem placements_attempt_of_nil {now : Time}
    (h : placements (p.attempt e now job).calls = []) : placements p.calls = [] := by
  have hcommit : ∀ (q : Pass) node reason,
      placements (q.commit e job node reason).calls = [] → placements q.calls = [] := by
    intro q node reason h
    rw [(q.adds_commit e job node reason).calls, placements_append] at h
    exact (List.append_eq_nil_iff.mp h).1
  have hgiveUp : ∀ (q : Pass) why,
      placements (q.giveUp e job why).calls = [] → placements q.calls = [] := by
    intro q why h
    rw [Pass.giveUp, Pass.record, placements_append] at h
    exact (List.append_eq_nil_iff.mp h).1
  have hevict : ∀ plan, placements (p.evict plan).calls = [] → placements p.calls = [] := by
    intro plan h
    obtain ⟨l, -, hadds⟩ := p.adds_evict plan
    rw [hadds.calls, placements_append] at h
    exact (List.append_eq_nil_iff.mp h).1
  have htried : Pass.Tried e now job p (p.attempt e now job) := Pass.tried_attempt
  generalize p.attempt e now job = q at h htried
  cases htried with
  | placed _ => exact hcommit _ _ _ h
  | refused _ => exact hgiveUp _ _ h
  | replaced _ _ _ _ => exact hevict _ (hcommit _ _ _ h)
  | wasted _ _ _ _ => exact hevict _ (hgiveUp _ _ h)

/-- As long as nothing was placed, the pass is idle, and who was attempted has to wait. -/
theorem idle_undisturbed (hreq : s.NonnegRequests) (hsize : s.NoneOversized)
    (hl : placements l = []) : Trading s.priorityOf s.contenders s [] (e.undisturbed clock [] l s) ∧
      (placements (e.undisturbed clock [] l s).calls = [] →
        Idle s [] (e.undisturbed clock [] l s) ∧
          ∀ j ∈ e.queue clock s, Waits e clock.pass s j) := by
  refine Pass.run_induct_attempt
    (I := fun done queue p ↦ Trading s.priorityOf s.contenders s queue p ∧
      (placements p.calls = [] → Idle s [] p ∧ ∀ j ∈ done, Waits e clock.pass s j)) ⟨?_, ?_⟩ ?_
  · exact .start [] hl
  · exact fun _ ↦ ⟨.start [] hl, fun j hj ↦ absurd hj List.not_mem_nil⟩
  · rintro done job queue p ⟨htrade, hidle⟩
    refine ⟨htrade.tried hreq hsize (fun j hj ↦ s.priorityOf_of_mem hj) (Finset.Subset.refl _)
      Pass.tried_attempt, fun hno ↦ ?_⟩
    obtain ⟨hp, hdone⟩ := hidle (placements_attempt_of_nil hno)
    have hwaits : Waits e clock.pass s job :=
      waits_of_attempt (fun _ ↦ hreq) hp
        (fun plan why hplan ↦ htrade.not_wasted hreq hsize hplan) hno
    refine ⟨hp.attempt (fun _ ↦ hreq) hwaits, fun j hj ↦ ?_⟩
    rcases List.mem_append.mp hj with hj | hj
    · exact hdone j hj
    · rwa [List.mem_singleton.mp hj]

/-- **When a pass places nothing**, all queued jobs have to wait. -/
theorem waits_of_idle (hreq : s.NonnegRequests) (hsize : s.NoneOversized)
    (hlog : Logs Smooth (e.tick clock) s r l t) (hnone : placements l = []) :
    ∀ j ∈ s.jobs.rows, j.status = .queued → Waits e clock.pass s j := by
  obtain ⟨-, hend⟩ := tick_undisturbed hlog
  obtain ⟨rfl, rfl⟩ := Prod.mk.inj hend
  obtain ⟨-, hall⟩ := (idle_undisturbed hreq hsize rfl).2 hnone
  exact fun j hj hst ↦ hall j (Engine.mem_queueOrder.mpr ⟨hj, hst⟩)

/-- Among passes that are more than their placements there is one that places nothing. -/
theorem Ticks.exists_without_placement {E : Engine → Prop} {n : ℕ} (h : Ticks E n s l t)
    (hfew : (placements l).length < n) :
    ∃ k l₁ u e clock r l₂ v l₃, k < n ∧ E e ∧ l = l₁ ++ (l₂ ++ l₃) ∧ Ticks E k s l₁ u ∧
      Logs Smooth (e.tick clock) u r l₂ v ∧ Ticks E (n - k - 1) v l₃ t ∧ placements l₂ = [] := by
  induction h with
  | nil s => exact absurd hfew (Nat.not_lt_zero _)
  | @cons e clock n s t u r l l' he hlog hrest ih =>
      cases hl : placements l with
      | nil => exact ⟨0, [], s, e, clock, r, l, t, l', n.succ_pos, he, rfl, .nil s, hlog, hrest, hl⟩
      | cons x xs =>
          rw [placements_append, hl, List.cons_append, List.length_cons, List.length_append] at hfew
          obtain ⟨k, l₁, u', e', clock', r', l₂, v, l₃, hk, he', rfl, hbefore, hlog', hafter,
            hnone⟩ := ih (by omega)
          refine ⟨k + 1, l ++ l₁, u', e', clock', r', l₂, v, l₃, by omega, he', ?_,
            .cons he hlog hbefore, hlog', ?_, hnone⟩
          · rw [List.append_assoc]
          · rwa [show n + 1 - (k + 1) - 1 = n - k - 1 by omega]

end Rest

/-- **Passes come to rest.**  Among `2 ^ m` given passes, where `m` is the number of jobs that are
queued, scheduled or running, there is one that leaves every job and every node as it is, and in
which every queued job has to wait: no node has room for it, and if it may evict others, then no
node would have room without its jobs of lower priority. -/
theorem passes_come_to_rest {E : Engine → Prop} {n : ℕ} {s t : Store} {l : List Call}
    (hreq : s.NonnegRequests) (hsize : s.NoneOversized) (h : Ticks E n s l t)
    (hn : 2 ^ s.contenders.card ≤ n) :
    ∃ k l₁ u e clock r l₂ v l₃, k < n ∧ E e ∧ l = l₁ ++ (l₂ ++ l₃) ∧ Ticks E k s l₁ u ∧
      Logs Smooth (e.tick clock) u r l₂ v ∧ Ticks E (n - k - 1) v l₃ t ∧
      v.jobs = u.jobs ∧ v.nodes = u.nodes ∧
      ∀ j ∈ u.jobs.rows, j.status = .queued → Waits e clock.pass u j := by
  obtain ⟨k, l₁, u, e, clock, r, l₂, v, l₃, hk, he, hl, hbefore, hlog, hafter, hnone⟩ :=
    h.exists_without_placement ((few_placements h hreq hsize).2.trans_le hn)
  obtain ⟨hlater, -⟩ := few_placements hbefore hreq hsize
  have hwaits := waits_of_idle (hlater.nonnegRequests hreq) (hlater.noneOversized hsize) hlog hnone
  obtain ⟨hjobs, hnodes, -⟩ := idle_of_waits (fun _ ↦ hlater.nonnegRequests hreq) hwaits hlog
  exact ⟨k, l₁, u, e, clock, r, l₂, v, l₃, hk, he, hl, hbefore, hlog, hafter, hjobs, hnodes, hwaits⟩

namespace Rest

/-- A full node, and a waiting job that may evict the one that runs there. -/
def cluster : Store :=
  Small.store [Small.job "a" .running 1 2 "n" 1, Small.job "b" .queued 9 2 "" 2]
    [Small.node "n" .ready 2 0]

def engine : Engine := Small.engine .priority true

/-- One pass after the other. -/
def pass (s : Store) : Except StoreError Unit × Store × List Call :=
  logOp (engine.tick ⟨5, 5⟩) (steady 3) s

/-- The store after some passes. -/
def after : ℕ → Store
  | 0 => cluster
  | n + 1 => (pass (after n)).2.1

theorem logs_pass {s : Store}
    (h : ((engine.tick ⟨5, 5⟩) default).Admits Store.logged (fun m c env y ↦ Smooth m c env y.1)
      (steady 3) (s, [])) :
    Logs Smooth (engine.tick ⟨5, 5⟩) s (pass s).1 (pass s).2.2 (pass s).2.1 := logs_logOp h

theorem ticks_after : ∃ l, Ticks (fun e ↦ e = engine) 4 cluster l (after 4) :=
  ⟨_, .cons rfl (logs_pass (s := after 0) (by decide +kernel)) <|
    .cons rfl (logs_pass (s := after 1) (by decide +kernel)) <|
    .cons rfl (logs_pass (s := after 2) (by decide +kernel)) <|
    .cons rfl (logs_pass (s := after 3) (by decide +kernel)) (.nil _)⟩

end Rest

/-- Two jobs, and four passes: the first evicts and places, and another one is at rest. -/
theorem passes_come_to_rest_small :
    ∃ l, Ticks (fun e ↦ e = Rest.engine) 4 Rest.cluster l (Rest.after 4) ∧
      ∃ k l₁ u e clock r l₂ v l₃, k < 4 ∧ e = Rest.engine ∧ l = l₁ ++ (l₂ ++ l₃) ∧
        Ticks (fun e ↦ e = Rest.engine) k Rest.cluster l₁ u ∧
        Logs Smooth (e.tick clock) u r l₂ v ∧
        Ticks (fun e ↦ e = Rest.engine) (4 - k - 1) v l₃ (Rest.after 4) ∧
        v.jobs = u.jobs ∧ v.nodes = u.nodes ∧
        ∀ j ∈ u.jobs.rows, j.status = .queued → Waits e clock.pass u j := by
  obtain ⟨l, h⟩ := Rest.ticks_after
  exact ⟨l, h, passes_come_to_rest (by decide) (by decide) h (by decide)⟩

/-- No queued job fits on a node. -/
def Settled (s : Store) : Prop := ∀ j ∈ s.jobs.rows, j.status = .queued →
  ∀ n ∈ s.nodes.rows, n.fits j.resourceRequest = false

/-- What a pass without preemption leaves behind. -/
theorem Served.settled {done : List Job} {p : Pass} (h : Served done [] p) : Settled p.store := by
  intro j hj hq n hn
  have hdone := h.queued j hj hq
  rw [List.append_nil] at hdone
  rcases h.tried j hdone with ⟨j', hj', hid, hst⟩ | ⟨-, hfits⟩
  · rw [p.store.jobs.eq_of_key_eq hj' hj hid, hq] at hst
    cases hst
  · exact hfits n ((h.synced n).mpr hn)

theorem Settled.tick {e : Engine} {clock : Clock} {s t : Store} {r : Except StoreError Unit}
    {l : List Call} (h : Settled s) (hpre : e.cfg.enablePreemption = false)
    (hlog : Logs Smooth (e.tick clock) s r l t) :
    t.jobs = s.jobs ∧ t.nodes = s.nodes ∧ placements l = [] := by
  have hoff : ¬ e.cfg.enablePreemption = true := Bool.eq_false_iff.mp hpre
  refine idle_of_waits (fun hen ↦ absurd hen hoff) (fun j hj hst ↦ ?_) hlog
  exact ⟨h j hj hst, fun hen ↦ absurd hen hoff⟩

/-- **Without preemption one pass is enough.**  After it no pass without preemption, of whichever
engine and in whichever order the jobs are attempted, changes a job or a node. -/
theorem settled_without_preemption {e : Engine} {clock : Clock} {s t u : Store}
    {r : Except StoreError Unit} {l : List Call} {n : ℕ}
    (hreq : ∀ j ∈ s.jobs.rows, j.status = .queued → ∀ d, 0 ≤ j.request d)
    (hpre : e.cfg.enablePreemption = false)
    (hrun : Runs Smooth (e.tick clock) s r t)
    (h : Ticks (fun e ↦ e.cfg.enablePreemption = false) n t l u) :
    u.jobs = t.jobs ∧ u.nodes = t.nodes ∧ placements l = [] := by
  have hsettled : Settled t := by
    obtain ⟨p, rfl, hserved⟩ := served_tick hpre hreq hrun
    exact hserved.settled
  clear hrun
  induction h with
  | nil s => exact ⟨rfl, rfl, rfl⟩
  | @cons e' clock' n s' t u r' l l' hpre' hlog hrest ih =>
      obtain ⟨hjobs, hnodes, hl⟩ := hsettled.tick hpre' hlog
      have hnext : Settled t := by
        rw [Settled, hjobs, hnodes]
        exact hsettled
      obtain ⟨hjobs', hnodes', hl'⟩ := ih hnext
      refine ⟨hjobs'.trans hjobs, hnodes'.trans hnodes, ?_⟩
      rw [placements_append, hl, hl']
      rfl

namespace WorkConserving

/-- A second pass, by an engine that fills the nodes in another order. -/
def again : Except StoreError Unit × Store × List Call :=
  logOp ((Small.engine .firstFit false).tick ⟨7, 7⟩) (steady 3) after

theorem logs_again : Logs Smooth ((Small.engine .firstFit false).tick ⟨7, 7⟩) after again.1
    again.2.2 again.2.1 :=
  logs_logOp (by decide +kernel)

end WorkConserving

/-- The job that is left over still is. -/
theorem settled_without_preemption_second :
    (WorkConserving.after.jobs.find? "b").map Job.status = some .queued ∧
      WorkConserving.again.2.1.jobs = WorkConserving.after.jobs ∧
      WorkConserving.again.2.1.nodes = WorkConserving.after.nodes ∧
      placements (WorkConserving.again.2.2 ++ []) = [] :=
  ⟨by decide +kernel, settled_without_preemption (by decide) rfl WorkConserving.runs_after
    (.cons rfl WorkConserving.logs_again (.nil _))⟩

end GpuScheduler.Scheduler
