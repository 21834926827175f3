import GpuScheduler.Store.Basic

/-!
# What a call makes of a row

A call rewrites each row of a table by itself, and may add one row.  `Call.onJob` and
`Call.onNode` say what becomes of a row, and `find?_jobs_perform` and `find?_nodes_perform` that
this and a possible new row is all that happens.  An invariant that speaks about rows one by one
has to be checked for these only (`forall_jobs_exec`, `forall_nodes_exec`).
-/

namespace GpuScheduler

open Lib Models

namespace Call

/-- What a successful call makes of a job's row. -/
def onJob (c : Call) (now : Time) (j : Job) : Job :=
  match c with
  | jobsUpdateStatus id st => if j.jobID = id then j.withStatus st now else j
  | jobsSchedule id nodeID => if j.jobID = id then j.scheduledOn nodeID else j
  | jobsRequeue id st => if j.jobID = id then j.requeued st else j
  | _ => j

/-- What a successful call makes of a node's row. -/
def onNode (c : Call) (now : Time) (n : Node) : Node :=
  match c with
  | nodesUpsert new => if n.nodeID = new.nodeID then n.reregistered new now else n
  | nodesUpdateAvailability id gpu cpu mem =>
      if n.nodeID = id then n.setAvailable gpu cpu mem else n
  | nodesHeartbeat id => if n.nodeID = id then n.alive now else n
  | nodesSetStatus id st => if n.nodeID = id then n.withStatus st else n
  | nodesMarkStaleDown ttl => n.reaped ttl now
  | _ => n

theorem jobID_onJob (c : Call) (now : Time) (j : Job) : (c.onJob now j).jobID = j.jobID := by
  cases c with
  | jobsUpdateStatus _ _ | jobsSchedule _ _ | jobsRequeue _ _ =>
      simp only [onJob]
      split <;> rfl
  | _ => rfl

/-- No call changes what a job asks for. -/
theorem request_onJob (c : Call) (now : Time) (j : Job) :
    (c.onJob now j).request = j.request := by
  cases c with
  | jobsUpdateStatus _ _ | jobsSchedule _ _ | jobsRequeue _ _ =>
      simp only [onJob]
      split <;> rfl
  | _ => rfl

theorem nodeID_onNode (c : Call) (now : Time) (n : Node) : (c.onNode now n).nodeID = n.nodeID := by
  cases c with
  | nodesUpsert _ | nodesUpdateAvailability _ _ _ _ | nodesHeartbeat _ | nodesSetStatus _ _ =>
      simp only [onNode]
      split <;> rfl
  | nodesMarkStaleDown ttl => exact n.nodeID_reaped ttl now
  | _ => rfl

/-- Only a registration changes a capacity. -/
theorem cap_onNode {c : Call} (hc : ∀ n, c ≠ nodesUpsert n) (now : Time) (n : Node) :
    (c.onNode now n).cap = n.cap := by
  cases c with
  | nodesUpsert new => exact absurd rfl (hc new)
  | nodesUpdateAvailability _ _ _ _ | nodesHeartbeat _ | nodesSetStatus _ _ =>
      simp only [onNode]
      split <;> rfl
  | nodesMarkStaleDown ttl => exact n.cap_reaped ttl now
  | _ => rfl

end Call

namespace Store

variable (s : Store) (now : Time) (c : Call) (id : String)

/-- What becomes of the row of a job. -/
theorem find?_jobs_perform :
    (s.perform now c).2.jobs.find? id = (s.jobs.find? id).map (c.onJob now) ∨
      ∃ j, c = .jobsCreate j ∧ s.jobs.find? id = none ∧
        (s.perform now c).2.jobs.find? id = some j.created := by
  have hsame : s.jobs.find? id = (s.jobs.find? id).map fun j ↦ j := by simp
  cases c with
  | jobsCreate j =>
      simp only [perform, createJob]
      split
      · rename_i s' hs'
        split at hs'
        · rename_i hnew
          obtain rfl := Option.some.inj hs'
          simp only [Table.find?_insert]
          by_cases hid : id = j.created.jobID
          · exact .inr ⟨j, rfl, hid ▸ hnew, by rw [if_pos hid]⟩
          · rw [if_neg hid]
            exact .inl hsame
        · cases hs'
      · exact .inl hsame
  | jobsUpdateStatus _ _ | jobsSchedule _ _ | jobsRequeue _ _ =>
      refine .inl ?_
      simp only [perform, updateStatus, schedule, requeue, Table.find?_modify_eq_map]
      rfl
  | jobsGet _ | nodesGet _ | nodesHeartbeat _ =>
      simp only [perform]
      split <;> exact .inl hsame
  | nodesUpsert n =>
      simp only [perform, upsertNode]
      split <;> exact .inl hsame
  | jobsListByStatuses _ | jobsListScheduledForNode _ | jobsTeamGPUUsage | nodesList
  | nodesUpdateAvailability _ _ _ _ | nodesSetStatus _ _ | nodesMarkStaleDown _ | eventsRecord _ =>
      exact .inl hsame

/-- What becomes of the row of a node. -/
theorem find?_nodes_perform :
    (s.perform now c).2.nodes.find? id = (s.nodes.find? id).map (c.onNode now) ∨
      ∃ n, c = .nodesUpsert n ∧ s.nodes.find? id = none ∧
        (s.perform now c).2.nodes.find? id = some (n.registered now) := by
  have hsame : s.nodes.find? id = (s.nodes.find? id).map fun n ↦ n := by simp
  cases c with
  | nodesUpsert n =>
      simp only [perform, upsertNode]
      split
      · rename_i hnew
        simp only [Table.find?_insert]
        by_cases hid : id = (n.registered now).nodeID
        · exact .inr ⟨n, rfl, hid ▸ hnew, by rw [if_pos hid]⟩
        · refine .inl ?_
          rw [if_neg hid]
          cases hn : s.nodes.find? id with
          | none => rfl
          | some x =>
              have hne : x.nodeID ≠ n.nodeID := fun h ↦ hid ((Table.key_of_find? hn).symm.trans h)
              simp only [Option.map_some, Call.onNode, if_neg hne]
      · refine .inl ?_
        simp only [Table.find?_modify_eq_map]
        rfl
  | nodesHeartbeat id' =>
      simp only [perform]
      split
      · refine .inl ?_
        simp only [heartbeat, Table.find?_modify_eq_map]
        rfl
      · rename_i hnone
        refine .inl ?_
        cases hn : s.nodes.find? id with
        | none => rfl
        | some x =>
            have hne : x.nodeID ≠ id' := fun h ↦
              Table.find?_eq_none.mp hnone x (Table.mem_of_find? hn) h
            simp only [Option.map_some, Call.onNode, if_neg hne]
  | nodesUpdateAvailability _ _ _ _ | nodesSetStatus _ _ =>
      refine .inl ?_
      simp only [perform, updateAvailability, setStatus, Table.find?_modify_eq_map]
      rfl
  | nodesMarkStaleDown _ =>
      refine .inl ?_
      simp only [perform, markStaleDown, Table.find?_mapRows]
      rfl
  | jobsCreate j =>
      simp only [perform, createJob]
      split
      · rename_i s' hs'
        split at hs'
        · obtain rfl := Option.some.inj hs'
          exact .inl hsame
        · cases hs'
      · exact .inl hsame
  | jobsGet _ | nodesGet _ =>
      simp only [perform]
      split <;> exact .inl hsame
  | jobsUpdateStatus _ _ | jobsSchedule _ _ | jobsRequeue _ _ | jobsListByStatuses _
  | jobsListScheduledForNode _ | jobsTeamGPUUsage | nodesList | eventsRecord _ => exact .inl hsame

variable {s now c}

/-- What can be said of a call whether or not it fails. -/
theorem exec_elim {env : Env} {P : c.Ret → Store → Prop} (hfail : P (.error .failure) s)
    (hok : P (s.perform env.now c).1 (s.perform env.now c).2) :
    P (Store.exec c env s).1 (Store.exec c env s).2 := by
  rw [Store.exec]
  split
  · exact hfail
  · exact hok

/-- A call changes a node's row to what `Call.onNode` says, or not at all. -/
theorem find?_nodes_exec {env : Env} {id : String} {n : Node} (h : s.nodes.find? id = some n) :
    (Store.exec c env s).2.nodes.find? id = some n ∨
      (Store.exec c env s).2.nodes.find? id = some (c.onNode env.now n) := by
  refine exec_elim (P := fun _ t ↦ t.nodes.find? id = some n ∨
    t.nodes.find? id = some (c.onNode env.now n)) (.inl h) (.inr ?_)
  rcases find?_nodes_perform s env.now c id with heq | ⟨_, -, hnone, -⟩
  · rw [heq, h, Option.map_some]
  · rw [h] at hnone
    cases hnone

/-- A node's row is as it was after a call that fails, and otherwise what `Call.onNode` says or
new. -/
theorem mem_nodes_exec {env : Env} {n : Node} (h : n ∈ (Store.exec c env s).2.nodes.rows) :
    (env.fails = true ∧ n ∈ s.nodes.rows) ∨ (env.fails = false ∧
      ((∃ r ∈ s.nodes.rows, n = c.onNode env.now r) ∨
        ∃ new, c = .nodesUpsert new ∧ n = new.registered env.now)) := by
  cases hf : env.fails with
  | true =>
      rw [exec_of_fails hf] at h
      exact .inl ⟨rfl, h⟩
  | false =>
      rw [exec_of_ok hf] at h
      refine .inr ⟨rfl, ?_⟩
      have hfind := Table.find?_key h
      rcases find?_nodes_perform s env.now c n.nodeID with heq | ⟨new, hc, -, heq⟩
      · rw [hfind] at heq
        obtain ⟨r, hr, hn⟩ := Option.map_eq_some_iff.mp heq.symm
        exact .inl ⟨r, Table.mem_of_find? hr, hn.symm⟩
      · rw [hfind] at heq
        exact .inr ⟨new, hc, Option.some.inj heq⟩

/-- A property of all job rows is kept when it is kept of each, and holds of a new one. -/
theorem forall_jobs_exec {P : Job → Prop} {env : Env} (h : ∀ j ∈ s.jobs.rows, P j)
    (hrow : ∀ j ∈ s.jobs.rows, P (c.onJob env.now j))
    (hnew : ∀ j, c = .jobsCreate j → P j.created) :
    ∀ j ∈ (Store.exec c env s).2.jobs.rows, P j := by
  refine exec_elim (P := fun _ t ↦ ∀ j ∈ t.jobs.rows, P j) h fun j hj ↦ ?_
  have hfind := Table.find?_key hj
  rcases find?_jobs_perform s env.now c j.jobID with heq | ⟨j', hc, -, heq⟩
  · rw [hfind] at heq
    obtain ⟨x, hx, rfl⟩ := Option.map_eq_some_iff.mp heq.symm
    exact hrow x (Table.mem_of_find? hx)
  · rw [hfind] at heq
    rw [Option.some.inj heq]
    exact hnew j' hc

/-- The same for the nodes. -/
theorem forall_nodes_exec {P : Node → Prop} {env : Env} (h : ∀ n ∈ s.nodes.rows, P n)
    (hrow : ∀ n ∈ s.nodes.rows, P (c.onNode env.now n))
    (hnew : ∀ n, c = .nodesUpsert n → P (n.registered env.now)) :
    ∀ n ∈ (Store.exec c env s).2.nodes.rows, P n := by
  refine exec_elim (P := fun _ t ↦ ∀ n ∈ t.nodes.rows, P n) h fun n hn ↦ ?_
  have hfind := Table.find?_key hn
  rcases find?_nodes_perform s env.now c n.nodeID with heq | ⟨n', hc, -, heq⟩
  · rw [hfind] at heq
    obtain ⟨x, hx, rfl⟩ := Option.map_eq_some_iff.mp heq.symm
    exact hrow x (Table.mem_of_find? hx)
  · rw [hfind] at heq
    rw [Option.some.inj heq]
    exact hnew n' hc

end Store

end GpuScheduler
