import GpuScheduler.Store.Program

/-!
# Rules for the repository methods

One rule per method for operations that run alone: what has to hold for the postcondition to hold
after the call, whether it succeeds or fails.  The failing case is only to be considered when the
environment may let this very call fail.
-/

namespace GpuScheduler

open Lib Models

/-- The environment may let the call fail. -/
def MayFail (admits : Admits) (m : Mem) (c : Call) (s : Store) : Prop :=
  ∃ e, admits m c e s ∧ e.fails = true

/-- The environment may let some call fail. -/
def CanFail (admits : Admits) : Prop := ∃ m c s, MayFail admits m c s

/-- The database's clock may show this time at a call that succeeds. -/
def ClockShows (admits : Admits) (now : Time) : Prop := ∃ m c s, admits m c ⟨false, now⟩ s

variable {admits : Admits} {m : Mem} {s : Store}

theorem clockShows_of_ok {c : Call} {e : Env} (h : admits m c e s) (hf : e.fails = false) :
    ClockShows admits e.now := ⟨m, c, s, by rw [← hf]; exact h⟩

theorem wp_issue {c : Call} {Q : c.Ret → Mem → Store → Prop}
    (hok : ∀ e, admits m c e s → e.fails = false → Q (s.perform e.now c).1 m (s.perform e.now c).2)
    (herr : MayFail admits m c s → Q (.error .failure) m s) : Wp admits (issue c) Q m s := by
  refine Act.wp_call_alone.mpr fun e he ↦ ?_
  cases hf : e.fails with
  | false =>
      rw [Store.exec_of_ok hf]
      exact hok e he hf
  | true =>
      rw [Store.exec_of_fails hf]
      exact herr ⟨e, he, hf⟩

/-- Nothing can fail when the environment admits no error. -/
theorem not_canFail (h : ∀ m c e s, admits m c e s → NoError m c e s) : ¬ CanFail admits := by
  rintro ⟨m, c, s, e, he, hf⟩
  have := h m c e s he
  simp [NoError, hf] at this

theorem MayFail.canFail {c : Call} (h : MayFail admits m c s) : CanFail admits := ⟨m, c, s, h⟩

section Jobs

theorem wp_jobs_create {j : Job} {Q : Except StoreError Unit → Mem → Store → Prop}
    (hok : ∀ s', s.createJob j = some s' → Q (.ok ()) m s')
    (herr : Q (.error .failure) m s) : Wp admits (Jobs.create j) Q m s := by
  refine wp_issue (fun e _ _ ↦ ?_) fun _ ↦ herr
  simp only [Store.perform]
  cases h : s.createJob j with
  | none => exact herr
  | some s' => exact hok s' h

theorem wp_jobs_get {id : String} {Q : Except StoreError Job → Mem → Store → Prop}
    (hok : ∀ j, s.jobs.find? id = some j → Q (.ok j) m s)
    (hnone : s.jobs.find? id = none → Q (.error .notFound) m s)
    (herr : MayFail admits m (.jobsGet id) s → Q (.error .failure) m s) :
    Wp admits (Jobs.get id) Q m s := by
  refine wp_issue (fun e _ _ ↦ ?_) herr
  simp only [Store.perform]
  cases h : s.jobs.find? id with
  | none => exact hnone h
  | some j => exact hok j h

theorem wp_jobs_listByStatuses {ss : List JobStatus}
    {Q : Except StoreError (List Job) → Mem → Store → Prop}
    (hok : Q (.ok (s.listByStatuses ss)) m s)
    (herr : MayFail admits m (.jobsListByStatuses ss) s → Q (.error .failure) m s) :
    Wp admits (Jobs.listByStatuses ss) Q m s := wp_issue (fun _ _ _ ↦ hok) herr

theorem wp_jobs_updateStatus {id : String} {st : JobStatus}
    {Q : Except StoreError Unit → Mem → Store → Prop}
    (hok : ∀ now, ClockShows admits now → Q (.ok ()) m (s.updateStatus id st now))
    (herr : MayFail admits m (.jobsUpdateStatus id st) s → Q (.error .failure) m s) :
    Wp admits (Jobs.updateStatus id st) Q m s :=
  wp_issue (fun e he hf ↦ hok e.now (clockShows_of_ok he hf)) herr

theorem wp_jobs_schedule {id nodeID : String} {Q : Except StoreError Unit → Mem → Store → Prop}
    (hok : Q (.ok ()) m (s.schedule id nodeID))
    (herr : MayFail admits m (.jobsSchedule id nodeID) s → Q (.error .failure) m s) :
    Wp admits (Jobs.schedule id nodeID) Q m s := wp_issue (fun _ _ _ ↦ hok) herr

theorem wp_jobs_requeue {id : String} {st : JobStatus}
    {Q : Except StoreError Unit → Mem → Store → Prop}
    (hok : Q (.ok ()) m (s.requeue id st))
    (herr : MayFail admits m (.jobsRequeue id st) s → Q (.error .failure) m s) :
    Wp admits (Jobs.requeue id st) Q m s := wp_issue (fun _ _ _ ↦ hok) herr

theorem wp_jobs_teamGPUUsage {Q : Except StoreError (List (String × Int)) → Mem → Store → Prop}
    (hok : Q (.ok s.teamGPUUsage) m s)
    (herr : MayFail admits m .jobsTeamGPUUsage s → Q (.error .failure) m s) :
    Wp admits Jobs.teamGPUUsage Q m s := wp_issue (fun _ _ _ ↦ hok) herr

end Jobs

section Nodes

theorem wp_nodes_upsert {n : Node} {Q : Except StoreError Unit → Mem → Store → Prop}
    (hok : ∀ now, Q (.ok ()) m (s.upsertNode n now))
    (herr : MayFail admits m (.nodesUpsert n) s → Q (.error .failure) m s) :
    Wp admits (Nodes.upsert n) Q m s := wp_issue (fun e _ _ ↦ hok e.now) herr

theorem wp_nodes_get {id : String} {Q : Except StoreError Node → Mem → Store → Prop}
    (hok : ∀ n, s.nodes.find? id = some n → Q (.ok n) m s)
    (hnone : s.nodes.find? id = none → Q (.error .notFound) m s)
    (herr : MayFail admits m (.nodesGet id) s → Q (.error .failure) m s) :
    Wp admits (Nodes.get id) Q m s := by
  refine wp_issue (fun e _ _ ↦ ?_) herr
  simp only [Store.perform]
  cases h : s.nodes.find? id with
  | none => exact hnone h
  | some n => exact hok n h

theorem wp_nodes_list {Q : Except StoreError (List Node) → Mem → Store → Prop}
    (hok : Q (.ok s.listNodes) m s)
    (herr : MayFail admits m .nodesList s → Q (.error .failure) m s) :
    Wp admits Nodes.list Q m s := wp_issue (fun _ _ _ ↦ hok) herr

theorem wp_nodes_updateAvailability {n : Node} {Q : Except StoreError Unit → Mem → Store → Prop}
    (hok : Q (.ok ()) m
      (s.updateAvailability n.nodeID n.gpuAvailable n.cpuAvailable n.memoryAvailable))
    (herr : MayFail admits m
      (.nodesUpdateAvailability n.nodeID n.gpuAvailable n.cpuAvailable n.memoryAvailable) s →
      Q (.error .failure) m s) :
    Wp admits (Nodes.updateAvailability n) Q m s := wp_issue (fun _ _ _ ↦ hok) herr

theorem wp_nodes_heartbeat {id : String} {Q : Except StoreError Unit → Mem → Store → Prop}
    (hok : ∀ n now, s.nodes.find? id = some n → Q (.ok ()) m (s.heartbeat id now))
    (hnone : s.nodes.find? id = none → Q (.error .notFound) m s)
    (herr : MayFail admits m (.nodesHeartbeat id) s → Q (.error .failure) m s) :
    Wp admits (Nodes.heartbeat id) Q m s := by
  refine wp_issue (fun e _ _ ↦ ?_) herr
  simp only [Store.perform]
  cases h : s.nodes.find? id with
  | none => exact hnone h
  | some n => exact hok n e.now h

theorem wp_nodes_setStatus {id : String} {st : NodeStatus}
    {Q : Except StoreError Unit → Mem → Store → Prop}
    (hok : Q (.ok ()) m (s.setStatus id st))
    (herr : MayFail admits m (.nodesSetStatus id st) s → Q (.error .failure) m s) :
    Wp admits (Nodes.setStatus id st) Q m s := wp_issue (fun _ _ _ ↦ hok) herr

/-- Here the choice of the clock matters, so the rule passes it on. -/
theorem wp_nodes_markStaleDown {ttl : Duration}
    {Q : Except StoreError (List String) → Mem → Store → Prop}
    (hok : ∀ e, admits m (.nodesMarkStaleDown ttl) e s → e.fails = false →
      Q (.ok (s.staleNodes ttl e.now)) m (s.markStaleDown ttl e.now))
    (herr : MayFail admits m (.nodesMarkStaleDown ttl) s → Q (.error .failure) m s) :
    Wp admits (Nodes.markStaleDown ttl) Q m s := wp_issue hok herr

end Nodes

theorem wp_events_record {e : SchedulingEvent} {Q : Except StoreError Unit → Mem → Store → Prop}
    (hok : Q (.ok ()) m (s.record e)) (herr : Q (.error .failure) m s) :
    Wp admits (Events.record e) Q m s := wp_issue (fun _ _ _ ↦ hok) fun _ ↦ herr

end GpuScheduler
