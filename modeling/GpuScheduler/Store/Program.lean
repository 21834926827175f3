import GpuScheduler.Lib.Journal
import GpuScheduler.Lib.Logic
import GpuScheduler.Store.Basic

/-!
# Operations as programs over the store

An operation of the control plane (a scheduling pass, a report from an agent, an API request) is
a program whose calls are the repository methods.  `Mem` is what such an operation keeps in
memory between two calls: copies of node rows, and for a scheduling pass its map of running jobs
and the lost nodes it is recovering from.

The methods appear under their own names, `Jobs.schedule` for `JobRepository.Schedule` and so on.
-/

namespace GpuScheduler

open Lib Models

/-- What an operation holds in memory. -/
structure Mem where
  /-- The node rows the operation has read, with its own changes. -/
  nodes : List Node := []
  /-- `running` of a scheduling pass: node ID to the jobs believed to be on that node. -/
  running : String → List Job := fun _ ↦ []
  /-- `dead` of a scheduling pass: the nodes reported lost, while they are being recovered. -/
  dead : List String := []

instance : Inhabited Mem := ⟨{}⟩

namespace Mem

/-- Write a node through the pointer that the operation holds to it. -/
def putNode (m : Mem) (n : Node) : Mem :=
  { m with nodes := m.nodes.map fun x ↦ if x.nodeID = n.nodeID then n else x }

/-- `running[nodeID] = append(running[nodeID], job)`. -/
def addRunning (m : Mem) (nodeID : String) (job : Job) : Mem :=
  { m with running := fun id ↦ if id = nodeID then m.running id ++ [job] else m.running id }

theorem running_addRunning_self (m : Mem) (id : String) (j : Job) :
    (m.addRunning id j).running id = m.running id ++ [j] := if_pos rfl

theorem running_addRunning_of_ne (m : Mem) {id id' : String} (h : id' ≠ id) (j : Job) :
    (m.addRunning id j).running id' = m.running id' := if_neg h

/-- What is held after a write is the node written and the other nodes held before. -/
theorem mem_nodes_putNode {m : Mem} {n x : Node} (h : x ∈ (m.putNode n).nodes) :
    x = n ∨ (x ∈ m.nodes ∧ x.nodeID ≠ n.nodeID) := by
  obtain ⟨y, hy, rfl⟩ := List.mem_map.mp h
  by_cases hid : y.nodeID = n.nodeID
  · exact .inl (if_pos hid)
  · exact .inr (by rw [if_neg hid]; exact ⟨hy, hid⟩)

end Mem

/-- Operations of the control plane. -/
abbrev StoreM : Type → Type := Act Call Call.Ret Mem

/-- Call a repository method. -/
def issue (c : Call) : StoreM c.Ret := Act.call c

namespace Jobs

def create (j : Job) : StoreM (Except StoreError Unit) := issue (.jobsCreate j)

def get (id : String) : StoreM (Except StoreError Job) := issue (.jobsGet id)

def listByStatuses (statuses : List JobStatus) : StoreM (Except StoreError (List Job)) :=
  issue (.jobsListByStatuses statuses)

def listScheduledForNode (nodeID : String) : StoreM (Except StoreError (List Job)) :=
  issue (.jobsListScheduledForNode nodeID)

def updateStatus (id : String) (status : JobStatus) : StoreM (Except StoreError Unit) :=
  issue (.jobsUpdateStatus id status)

def schedule (id nodeID : String) : StoreM (Except StoreError Unit) :=
  issue (.jobsSchedule id nodeID)

def requeue (id : String) (status : JobStatus) : StoreM (Except StoreError Unit) :=
  issue (.jobsRequeue id status)

def teamGPUUsage : StoreM (Except StoreError (List (String × Int))) := issue .jobsTeamGPUUsage

end Jobs

namespace Nodes

def upsert (n : Node) : StoreM (Except StoreError Unit) := issue (.nodesUpsert n)

def get (id : String) : StoreM (Except StoreError Node) := issue (.nodesGet id)

def list : StoreM (Except StoreError (List Node)) := issue .nodesList

/-- `UpdateAvailability` with the availabilities of a node held in memory. -/
def updateAvailability (n : Node) : StoreM (Except StoreError Unit) :=
  issue (.nodesUpdateAvailability n.nodeID n.gpuAvailable n.cpuAvailable n.memoryAvailable)

def heartbeat (id : String) : StoreM (Except StoreError Unit) := issue (.nodesHeartbeat id)

def setStatus (id : String) (status : NodeStatus) : StoreM (Except StoreError Unit) :=
  issue (.nodesSetStatus id status)

def markStaleDown (ttl : Duration) : StoreM (Except StoreError (List String)) :=
  issue (.nodesMarkStaleDown ttl)

end Nodes

/-- `EventRepository.Record`. -/
def Events.record (e : SchedulingEvent) : StoreM (Except StoreError Unit) :=
  issue (.eventsRecord e)

/-! ## Running an operation alone -/

/-- What the environment may decide about the calls of an operation. -/
abbrev Admits : Type := Mem → Call → Env → Store → Prop

/-- `Runs admits x s a t`: the operation `x`, run alone and from an empty memory, may take the
store `s` to `t` and return `a`. -/
def Runs {α : Type} (admits : Admits) (x : StoreM α) (s : Store) (a : α) (t : Store) : Prop :=
  ∃ m, (x default).Exec Store.exec admits s (a, m) t

/-- The weakest precondition of an operation that runs alone. -/
abbrev Wp {α : Type} (admits : Admits) (x : StoreM α) (Q : α → Mem → Store → Prop) (m : Mem)
    (s : Store) : Prop := x.wp (.alone Store.exec admits) Q m s

theorem Wp.and {α : Type} {admits : Admits} {x : StoreM α} {P Q : α → Mem → Store → Prop} {m : Mem}
    {s : Store} (hP : Wp admits x P m s) (hQ : Wp admits x Q m s) :
    Wp admits x (fun a m s ↦ P a m s ∧ Q a m s) m s :=
  Prog.wp_alone_iff.mpr fun r t h ↦
    ⟨Prog.wp_alone_iff.mp hP r t h, Prog.wp_alone_iff.mp hQ r t h⟩

theorem Runs.of_wp {α : Type} {admits : Admits} {x : StoreM α} {s t : Store} {a : α}
    {Q : α → Store → Prop} (hr : Runs admits x s a t)
    (h : Wp admits x (fun a _ t ↦ Q a t) default s) : Q a t := by
  obtain ⟨m, hm⟩ := hr
  exact Prog.wp_alone_iff.mp h (a, m) t hm

/-- What holds of the store after every execution, whatever the operation returns. -/
theorem Runs.final {α : Type} {admits : Admits} {x : StoreM α} {s t : Store} {a : α}
    {P : Store → Prop} (hr : Runs admits x s a t)
    (h : Wp admits x (fun _ _ t ↦ P t) default s) : P t := hr.of_wp h

/-- `RunsFrom admits x m s a m' t`: the operation `x`, run alone and from the memory `m`, may take
the store `s` to `t` and return `a`, with `m'` in memory. -/
def RunsFrom {α : Type} (admits : Admits) (x : StoreM α) (m : Mem) (s : Store) (a : α) (m' : Mem)
    (t : Store) : Prop := (x m).Exec Store.exec admits s (a, m') t

theorem RunsFrom.of_wp {α : Type} {admits : Admits} {x : StoreM α} {m m' : Mem} {s t : Store}
    {a : α} {Q : α → Mem → Store → Prop} (hr : RunsFrom admits x m s a m' t)
    (h : Wp admits x Q m s) : Q a m' t := Prog.wp_alone_iff.mp h (a, m') t hr

theorem runsFrom_run {α : Type} {admits : Admits} {x : StoreM α} {ω : Nat → Env} {m : Mem}
    {s : Store} (h : (x m).Admits Store.exec admits ω s) :
    RunsFrom admits x m s ((x m).run Store.exec ω s).1.1 ((x m).run Store.exec ω s).1.2
      ((x m).run Store.exec ω s).2 := Prog.exec_run h

/-- The result of running an operation alone under given choices of the environment. -/
def runOp {α : Type} (x : StoreM α) (ω : Nat → Env) (s : Store) : α × Store :=
  let r := (x default).run Store.exec ω s
  (r.1.1, r.2)

theorem runs_runOp {α : Type} {admits : Admits} {x : StoreM α} {ω : Nat → Env} {s : Store}
    (h : (x default).Admits Store.exec admits ω s) :
    Runs admits x s (runOp x ω s).1 (runOp x ω s).2 :=
  ⟨((x default).run Store.exec ω s).1.2, Prog.exec_run h⟩

/-! ## Keeping a journal -/

/-- Execute a call on the store, and write it down if it succeeds. -/
def Store.logged : (c : Call) → Env → Store × List Call → c.Ret × (Store × List Call) :=
  journal Store.exec fun _ r ↦ r.isOk

/-- `Logs admits x s a l t`: the operation `x` may take the store `s` to `t` and return `a`, and
`l` are the calls that succeeded, in their order. -/
def Logs {α : Type} (admits : Admits) (x : StoreM α) (s : Store) (a : α) (l : List Call)
    (t : Store) : Prop :=
  ∃ m, (x default).Exec Store.logged (fun m c e y ↦ admits m c e y.1) (s, []) (a, m) (t, l)

/-- The weakest precondition of an operation of which a journal is kept. -/
abbrev LogWp {α : Type} (admits : Admits) (x : StoreM α) (Q : α → Mem → Store × List Call → Prop)
    (m : Mem) (y : Store × List Call) : Prop :=
  x.wp (.alone Store.logged fun m c e y ↦ admits m c e y.1) Q m y

/-- The result of running an operation alone under given choices of the environment, with the
journal of the run. -/
def logOp {α : Type} (x : StoreM α) (ω : Nat → Env) (s : Store) : α × Store × List Call :=
  let r := (x default).run Store.logged ω (s, [])
  (r.1.1, r.2)

theorem logs_logOp {α : Type} {admits : Admits} {x : StoreM α} {ω : Nat → Env} {s : Store}
    (h : (x default).Admits Store.logged (fun m c e y ↦ admits m c e y.1) ω (s, [])) :
    Logs admits x s (logOp x ω s).1 (logOp x ω s).2.2 (logOp x ω s).2.1 :=
  ⟨((x default).run Store.logged ω (s, [])).1.2, Prog.exec_run h⟩

theorem Runs.logs {α : Type} {admits : Admits} {x : StoreM α} {s t : Store} {a : α}
    (hr : Runs admits x s a t) : ∃ l, Logs admits x s a l t := by
  obtain ⟨m, hm⟩ := hr
  obtain ⟨l, hl⟩ : ∃ l, (x default).Exec Store.logged (fun m c e y ↦ admits m c e y.1) (s, [])
    (a, m) (t, l) := hm.journal []
  exact ⟨l, m, hl⟩

theorem Logs.runs {α : Type} {admits : Admits} {x : StoreM α} {s t : Store} {a : α} {l : List Call}
    (hr : Logs admits x s a l t) : Runs admits x s a t := by
  obtain ⟨m, hm⟩ := hr
  exact ⟨m, hm.of_journal⟩

theorem Logs.of_wp {α : Type} {admits : Admits} {x : StoreM α} {s t : Store} {a : α}
    {l : List Call} {Q : α → Store × List Call → Prop} (hr : Logs admits x s a l t)
    (h : LogWp admits x (fun a _ y ↦ Q a y) default (s, [])) : Q a (t, l) := by
  obtain ⟨m, hm⟩ := hr
  exact Prog.wp_alone_iff.mp h (a, m) (t, l) hm

/-! ## Keeping a history -/

/-- Execute a call on the store, and write it down with the store that it found if it succeeds. -/
def Store.traced : (c : Call) → Env → Store × List (Store × Call) →
    c.Ret × (Store × List (Store × Call)) := history Store.exec fun _ r ↦ r.isOk

/-- `Traces admits x s a h t`: the operation `x` may take the store `s` to `t` and return `a`, and
`h` are the calls that succeeded, in their order, each with the store that it found. -/
def Traces {α : Type} (admits : Admits) (x : StoreM α) (s : Store) (a : α)
    (h : List (Store × Call)) (t : Store) : Prop :=
  ∃ m, (x default).Exec Store.traced (fun m c e y ↦ admits m c e y.1) (s, []) (a, m) (t, h)

/-- Every run has a history. -/
theorem Runs.traces {α : Type} {admits : Admits} {x : StoreM α} {s t : Store} {a : α}
    (hr : Runs admits x s a t) : ∃ h, Traces admits x s a h t := by
  obtain ⟨m, hm⟩ := hr
  obtain ⟨h, hh⟩ : ∃ h, (x default).Exec Store.traced (fun m c e y ↦ admits m c e y.1) (s, [])
    (a, m) (t, h) := hm.history []
  exact ⟨h, m, hh⟩

/-- The result of running an operation alone under given choices of the environment, with the
history of the run. -/
def traceOp {α : Type} (x : StoreM α) (ω : Nat → Env) (s : Store) :
    α × Store × List (Store × Call) :=
  let r := (x default).run Store.traced ω (s, [])
  (r.1.1, r.2)

theorem traces_traceOp {α : Type} {admits : Admits} {x : StoreM α} {ω : Nat → Env} {s : Store}
    (h : (x default).Admits Store.traced (fun m c e y ↦ admits m c e y.1) ω (s, [])) :
    Traces admits x s (traceOp x ω s).1 (traceOp x ω s).2.2 (traceOp x ω s).2.1 :=
  ⟨((x default).run Store.traced ω (s, [])).1.2, Prog.exec_run h⟩

/-- Every call succeeds, at the given time ... -/
def steady (now : Time) : Nat → Env := fun _ ↦ ⟨false, now⟩

/-- ... or at time 1. -/
def calm : Nat → Env := steady 1

/-- The environment may decide anything. -/
def Anything : Admits := fun _ _ _ _ ↦ True

/-- No call fails. -/
def NoError : Admits := fun _ _ e _ ↦ e.fails = false

instance : ∀ m c e s, Decidable (NoError m c e s) := fun _ _ e _ ↦
  inferInstanceAs (Decidable (e.fails = false))

/-- No call fails, and `MarkStaleDown` looks at the given time. -/
def ReapsAt (now : Time) : Admits := fun _ c e _ ↦
  e.fails = false ∧ ∀ ttl, c = .nodesMarkStaleDown ttl → e.now = now

/-- No node is stale when `MarkStaleDown` looks. -/
def NoStale : Admits
  | _, .nodesMarkStaleDown ttl, e, s => ∀ n ∈ s.nodes.rows, n.stale ttl e.now = false
  | _, _, _, _ => True

instance : ∀ m c e s, Decidable (NoStale m c e s) := fun _ c e s ↦
  match c with
  | .nodesMarkStaleDown ttl =>
      inferInstanceAs (Decidable (∀ n ∈ s.nodes.rows, n.stale ttl e.now = false))
  | .jobsCreate _ | .jobsGet _ | .jobsListByStatuses _ | .jobsListScheduledForNode _
  | .jobsUpdateStatus _ _ | .jobsSchedule _ _ | .jobsRequeue _ _ | .jobsTeamGPUUsage
  | .nodesUpsert _ | .nodesGet _ | .nodesList | .nodesUpdateAvailability _ _ _ _
  | .nodesHeartbeat _ | .nodesSetStatus _ _ | .eventsRecord _ => .isTrue trivial

/-- No call fails, and no node is stale. -/
def Smooth : Admits := fun m c e s ↦ NoError m c e s ∧ NoStale m c e s

instance : ∀ m c e s, Decidable (Smooth m c e s) := fun m c e s ↦
  inferInstanceAs (Decidable (NoError m c e s ∧ NoStale m c e s))

end GpuScheduler
