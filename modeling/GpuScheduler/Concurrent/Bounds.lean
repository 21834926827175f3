import GpuScheduler.Accounting.Load
import GpuScheduler.Concurrent.OperationSpec
import GpuScheduler.Scheduler.PassSpec

/-!
# Availability stays within bounds

Whatever operations are in progress, whichever of their calls fail and however these interleave,
no node row and no copy of one that an operation holds in memory ever shows less than nothing or
more than the capacity available (`availability_inBounds`).  What is asked of the outside is that
jobs ask for nothing negative and that no registration lowers a node's capacity.

The proof is by rely and guarantee.  An operation may write an availability back to a row that
has changed a lot since it was read; but a row is never lost and its capacity never shrinks, so
what was within the capacity of the copy is within the capacity of the row.
-/

namespace GpuScheduler

open Lib Models Scheduler

/-- Between nothing and the capacity is available, of every resource. -/
def Models.Node.InBounds (n : Node) : Prop := ∀ d, 0 ≤ n.avail d ∧ n.avail d ≤ n.cap d

instance (n : Node) : Decidable n.InBounds :=
  inferInstanceAs (Decidable (∀ d, 0 ≤ n.avail d ∧ n.avail d ≤ n.cap d))

/-- A registration offers a nonnegative capacity, and does not lower that of a known node. -/
def CapacityKept : Pool.Policy Operation Call Mem Store Env
  | _, _, _, .nodesUpsert n, _, s => ∀ d, 0 ≤ n.cap d ∧
      ∀ r ∈ s.nodes.rows, r.nodeID = n.nodeID → r.cap d ≤ n.cap d
  | _, _, _, _, _, _ => True

instance : ∀ i op m c env s, Decidable (CapacityKept i op m c env s) := fun _ _ _ c _ s ↦
  match c with
  | .nodesUpsert n => inferInstanceAs (Decidable (∀ d, 0 ≤ n.cap d ∧
      ∀ r ∈ s.nodes.rows, r.nodeID = n.nodeID → r.cap d ≤ n.cap d))
  | .jobsCreate _ | .jobsGet _ | .jobsListByStatuses _ | .jobsListScheduledForNode _
  | .jobsUpdateStatus _ _ | .jobsSchedule _ _ | .jobsRequeue _ _ | .jobsTeamGPUUsage
  | .nodesGet _ | .nodesList | .nodesUpdateAvailability _ _ _ _ | .nodesHeartbeat _
  | .nodesSetStatus _ _ | .nodesMarkStaleDown _ | .eventsRecord _ => .isTrue trivial

namespace Bounds

/-! ## Invariant and interference -/

/-- The rows are within bounds. -/
def Inv (s : Store) : Prop := (∀ n ∈ s.nodes.rows, n.InBounds) ∧ s.NonnegRequests

/-- No row is lost and no capacity shrinks. -/
def Keeps (s t : Store) : Prop := ∀ id n, s.nodes.find? id = some n →
  ∃ n', t.nodes.find? id = some n' ∧ ∀ d, n.cap d ≤ n'.cap d

theorem Keeps.refl (s : Store) : Keeps s s := fun _ n h ↦ ⟨n, h, fun _ ↦ le_rfl⟩

theorem Keeps.trans {s t u : Store} (h : Keeps s t) (h' : Keeps t u) : Keeps s u := by
  intro id n hn
  obtain ⟨n₁, hn₁, hc₁⟩ := h id n hn
  obtain ⟨n₂, hn₂, hc₂⟩ := h' id n₁ hn₁
  exact ⟨n₂, hn₂, fun d ↦ (hc₁ d).trans (hc₂ d)⟩

/-- The setting of every operation: the others keep the rows and their capacities, and so does the
operation. -/
def logic (i : Nat) (op : Operation) : Logic Call Call.Ret Mem Store Env where
  exec := onStore i op
  admits := CapacityKept i op
  inv := Inv
  rely := Keeps
  guar := Keeps
  held m _ := ∀ n ∈ m.nodes, n.InBounds
  rely_refl := Keeps.refl
  rely_trans := Keeps.trans

/-! ## The calls -/

/-- A copy of a node row, possibly an old one. -/
def NodeOK (n : Node) (s : Store) : Prop :=
  n.InBounds ∧ ∃ r, s.nodes.find? n.nodeID = some r ∧ ∀ d, n.cap d ≤ r.cap d

def JobOK (j : Job) (_ : Store) : Prop := ∀ d, 0 ≤ j.request d

/-- What an operation has to know before a call. -/
def Allowed : Call → Store → Prop
  | .jobsCreate j, _ => ∀ d, 0 ≤ j.request d
  | .nodesUpsert n, _ => ∀ d, n.avail d = n.cap d
  | .nodesUpdateAvailability id gpu cpu mem, s => ∀ r, s.nodes.find? id = some r →
      (r.setAvailable gpu cpu mem).InBounds
  | _, _ => True

/-- What an operation knows of an answer. -/
def Answer : (c : Call) → c.Ret → Store → Prop
  | .nodesList, .ok ns, s => ∀ n ∈ ns, NodeOK n s
  | .nodesGet _, .ok n, s => NodeOK n s
  | .jobsListByStatuses _, .ok js, s => (js.map Job.jobID).Nodup ∧ ∀ j ∈ js, JobOK j s
  | .jobsGet _, .ok j, s => JobOK j s
  | _, _, _ => True

theorem NodeOK.keeps {n : Node} {s t : Store} (h : NodeOK n s) (hst : Keeps s t) : NodeOK n t := by
  obtain ⟨hb, r, hr, hc⟩ := h
  obtain ⟨r', hr', hc'⟩ := hst n.nodeID r hr
  exact ⟨hb, r', hr', fun d ↦ (hc d).trans (hc' d)⟩

theorem NodeOK.of_mem {n : Node} {s : Store} (hi : Inv s) (h : n ∈ s.nodes.rows) : NodeOK n s :=
  ⟨hi.1 n h, n, Table.find?_key h, fun _ ↦ le_rfl⟩

/-- What is known of an answer stays known. -/
theorem Answer.keeps {c : Call} {r : c.Ret} {s t : Store} (h : Answer c r s) (hst : Keeps s t) :
    Answer c r t := by
  cases c with
  | nodesList =>
      cases r with
      | error _ => trivial
      | ok ns => exact fun n hn ↦ (h n hn).keeps hst
  | nodesGet id =>
      cases r with
      | error _ => trivial
      | ok n => exact NodeOK.keeps h hst
  | jobsListByStatuses ss => cases r <;> exact h
  | jobsGet id => cases r <;> exact h
  | _ => trivial

/-- What a call makes of a row: it stays within bounds, and no capacity is lowered. -/
theorem onNode_inBounds {s : Store} {c : Call} {env : Env} {i : Nat} {op : Operation} {m : Mem}
    {n : Node} (hn : n ∈ s.nodes.rows) (hb : n.InBounds) (ha : Allowed c s)
    (hp : CapacityKept i op m c env s) :
    (c.onNode env.now n).InBounds ∧ ∀ d, n.cap d ≤ (c.onNode env.now n).cap d := by
  -- a rewriting that leaves the numbers alone
  have hsame : ∀ n' : Node, n'.cap = n.cap → n'.avail = n.avail →
      n'.InBounds ∧ ∀ d, n.cap d ≤ n'.cap d := fun n' hc hav ↦
    ⟨fun d ↦ by rw [hc, hav]; exact hb d, fun d ↦ by rw [hc]⟩
  cases c with
  | nodesUpsert new =>
      simp only [Call.onNode]
      split
      · rename_i hid
        have hcap : ∀ d, (n.reregistered new env.now).cap d = new.cap d := fun d ↦ by
          cases d <;> rfl
        have hav : ∀ d, (n.reregistered new env.now).avail d = n.avail d := fun d ↦ by
          cases d <;> rfl
        refine ⟨fun d ↦ ?_, fun d ↦ ?_⟩
        · rw [hav, hcap]
          exact ⟨(hb d).1, (hb d).2.trans ((hp d).2 n hn hid)⟩
        · rw [hcap]
          exact (hp d).2 n hn hid
      · exact hsame n rfl rfl
  | nodesUpdateAvailability id gpu cpu mem =>
      simp only [Call.onNode]
      split
      · rename_i hid
        exact ⟨ha n (hid ▸ Table.find?_key hn), fun d ↦ by rw [Node.cap_setAvailable]⟩
      · exact hsame n rfl rfl
  | nodesHeartbeat id | nodesSetStatus id st =>
      simp only [Call.onNode]
      split
      · exact hsame _ (funext fun d ↦ by cases d <;> rfl) (funext fun d ↦ by cases d <;> rfl)
      · exact hsame n rfl rfl
  | nodesMarkStaleDown ttl =>
      simp only [Call.onNode, Node.reaped]
      split
      · exact hsame _ (funext fun d ↦ by cases d <;> rfl) (funext fun d ↦ by cases d <;> rfl)
      · exact hsame n rfl rfl
  | _ => exact hsame n rfl rfl

/-- What an answer tells. -/
theorem answer_exec {s : Store} {c : Call} {env : Env} (hi : Inv s) :
    Answer c (Store.exec c env s).1 (Store.exec c env s).2 := by
  refine Store.exec_elim (P := Answer c) (by cases c <;> trivial) ?_
  cases c with
  | jobsGet id =>
      simp only [Store.perform]
      cases hj : s.jobs.find? id with
      | none => trivial
      | some j => exact hi.2 j (Table.mem_of_find? hj)
  | jobsListByStatuses ss =>
      exact ⟨s.nodup_listByStatuses ss, fun j hj ↦
        hi.2 j (List.mem_filter.mp (mem_sliceStable.mp hj)).1⟩
  | nodesGet id =>
      simp only [Store.perform]
      cases hn : s.nodes.find? id with
      | none => trivial
      | some n => exact .of_mem hi (Table.mem_of_find? hn)
  | nodesList => exact fun n hn ↦ .of_mem hi (mem_sliceStable.mp hn)
  | _ => trivial

/-- Every allowed call keeps the invariant and the guarantee, and answers what it should. -/
theorem call {m : Mem} {c : Call} {env : Env} {s : Store} {i : Nat} {op : Operation} (hi : Inv s)
    (ha : Allowed c s) (hp : CapacityKept i op m c env s) :
    Inv (Store.exec c env s).2 ∧ Keeps s (Store.exec c env s).2 ∧
      Answer c (Store.exec c env s).1 (Store.exec c env s).2 := by
  have hrow : ∀ n ∈ s.nodes.rows, (c.onNode env.now n).InBounds ∧
      ∀ d, n.cap d ≤ (c.onNode env.now n).cap d := fun n hn ↦
    onNode_inBounds hn (hi.1 n hn) ha hp
  refine ⟨⟨?_, ?_⟩, ?_, answer_exec hi⟩
  · refine Store.forall_nodes_exec hi.1 (fun n hn ↦ (hrow n hn).1) fun n hc ↦ ?_
    subst hc
    have hcap : ∀ d, (n.registered env.now).cap d = n.cap d := fun d ↦ by cases d <;> rfl
    have hav : ∀ d, (n.registered env.now).avail d = n.cap d := fun d ↦ by
      rw [← ha d]
      cases d <;> rfl
    intro d
    rw [hav, hcap]
    exact ⟨(hp d).1, le_rfl⟩
  · refine Store.forall_jobs_exec hi.2 (fun j hj d ↦ ?_) fun j hc ↦ ?_
    · rw [Call.request_onJob]
      exact hi.2 j hj d
    · subst hc
      exact ha
  · refine Store.exec_elim (P := fun _ t ↦ Keeps s t) (.refl s) fun id n hn ↦ ?_
    rcases Store.find?_nodes_perform s env.now c id with heq | ⟨_, -, hnone, -⟩
    · exact ⟨c.onNode env.now n, by rw [heq, hn, Option.map_some],
        (hrow n (Table.mem_of_find? hn)).2⟩
    · rw [hn] at hnone
      cases hnone

/-! ## The operations -/

section Threads

variable {i : Nat} {op : Operation} {m : Mem} {s : Store}

/-- Returning a nonnegative request to a copy keeps it within bounds. -/
theorem NodeOK.release {n : Node} {r : ResourceRequest} (h : NodeOK n s)
    (hr : ∀ d, 0 ≤ r.amount d) : NodeOK (n.release r) s := by
  refine ⟨fun d ↦ ?_, ?_⟩
  · have hb := h.1 d
    have := hr d
    rw [Node.avail_release, Node.cap_release]
    omega
  · obtain ⟨r', hr', hc⟩ := h.2
    exact ⟨r', hr', fun d ↦ by rw [Node.cap_release]; exact hc d⟩

/-- A copy may be written back to its row. -/
theorem NodeOK.allowed {n : Node} (h : NodeOK n s) : Allowed
    (.nodesUpdateAvailability n.nodeID n.gpuAvailable n.cpuAvailable n.memoryAvailable) s := by
  intro r hr d
  obtain ⟨r', hr', hc⟩ := h.2
  rw [hr', Option.some.injEq] at hr
  subst hr
  rw [Node.avail_setAvailable, Node.cap_setAvailable]
  exact ⟨(h.1 d).1, (h.1 d).2.trans (hc d)⟩

/-- A scheduling pass. -/
def passSpec (i : Nat) (op : Operation) : PassSpec (logic i op) where
  nodeOK := NodeOK
  jobOK := JobOK
  allowed := Allowed
  answer := Answer
  node_stable h hst _ := h.keeps hst
  job_stable h _ _ := h
  answer_stable h hst _ := h.keeps hst
  held h _ := fun n hn ↦ (h n hn).1
  call hi ha hp := Bounds.call hi ha hp
  node_call h hi ha hp := h.keeps (Bounds.call hi ha hp).2.1
  job_call h _ _ _ _ := h
  reserve h hj hf := by
    refine ⟨fun d ↦ ?_, ?_⟩
    · have hb := h.1 d
      have hfit := (Node.fits_iff.mp hf).2 d
      have hpos := hj d
      rw [Job.request] at hpos
      rw [Node.avail_reserve, Node.cap_reserve]
      omega
    · obtain ⟨r, hr, hc⟩ := h.2
      exact ⟨r, hr, fun d ↦ by rw [Node.cap_reserve]; exact hc d⟩
  release h hj := h.release hj
  nodes h := h
  queued h := h.2
  active h := h
  read {c s} hc := by
    simp only [List.mem_cons, List.not_mem_nil, or_false] at hc
    rcases hc with rfl | rfl | rfl | rfl <;> trivial
  markStaleDown _ _ := trivial
  record _ _ := trivial
  schedule _ _ _ := trivial
  updateAvailability h := h.allowed
  requeue _ _ _ := trivial
  requeued _ _ := trivial
  failed _ := trivial

/-- Reports and cancel requests. -/
def requestSpec (i : Nat) (op : Operation) : RequestSpec (logic i op) where
  nodeOK := NodeOK
  readOK := JobOK
  jobOK := JobOK
  node_stable h hst _ := h.keeps hst
  read_stable h _ _ := h
  job_stable h _ _ := h
  held h _ := fun n hn ↦ (h n hn).1
  getJob hi hp := by
    obtain ⟨hinv, hkeeps, hans⟩ := (passSpec i op).call (c := .jobsGet _) hi trivial hp
    refine ⟨hinv, hkeeps, fun j hj ↦ ?_⟩
    rw [hj] at hans
    exact hans
  unfinished h _ := h
  getNode hi hj hp := by
    obtain ⟨hinv, hkeeps, hans⟩ := (passSpec i op).call (c := .nodesGet _) hi trivial hp
    refine ⟨hinv, hkeeps, hj, fun n hn ↦ ?_⟩
    rw [hn] at hans
    exact hans
  release h hj := h.release hj
  updateAvailability c hc hi hj hn hp := by
    subst hc
    obtain ⟨hinv, hkeeps, -⟩ := (passSpec i op).call hi ((passSpec i op).updateAvailability hn) hp
    exact ⟨hinv, hkeeps, hj, hn.keeps hkeeps⟩
  updateStatus hi _ _ hp := by
    obtain ⟨hinv, hkeeps, -⟩ := (passSpec i op).call (c := .jobsUpdateStatus _ _) hi trivial hp
    exact ⟨hinv, hkeeps⟩

/-- Every operation meets its obligations, under any number. -/
theorem wp_thread (op' : Operation) : op'.thread.wp (logic i op) (fun _ _ ↦ True) s := by
  refine op'.wp_thread (fun e clock _ ↦ (passSpec i op).wp_tick)
    (fun req _ ↦ (requestSpec i op).wp_updateJobStatus fun h ↦ h)
    (fun id _ ↦ (requestSpec i op).wp_handleCancelJob) fun c s hc hs ↦ ?_
  refine ⟨fun _ hn ↦ absurd hn List.not_mem_nil, fun env henv ↦ ?_⟩
  have hcall : Allowed c s → Inv ((logic i op).exec c env s).2 ∧
      Keeps s ((logic i op).exec c env s).2 := fun ha ↦ by
    obtain ⟨hinv, hkeeps, -⟩ := (passSpec i op).call hs ha henv
    exact ⟨hinv, hkeeps⟩
  cases op' with
  | tick _ _ | report _ | cancel _ => exact absurd hc id
  | submit req newID now retries =>
      obtain ⟨hv, rfl⟩ := hc
      exact hcall (Api.request_nonneg_of_validateSubmit hv)
  | register req =>
      obtain rfl := hc
      exact hcall fun d ↦ by cases d <;> rfl
  | heartbeat _ | cordon _ | drain _ | uncordon _ =>
      rcases hc with rfl | rfl <;> exact hcall trivial
  | assignments _ | markStaleDown _ =>
      obtain rfl := hc
      exact hcall trivial

end Threads

/-- The outline: all operations share the invariant and keep each other's assumptions. -/
def outline : Pool.Outline onStore CapacityKept Unit where
  logic := logic
  post _ _ _ _ := True
  inv := Inv
  exec_eq _ _ := rfl
  admits_eq _ _ := rfl
  inv_eq _ _ := rfl
  guar_rely _ _ _ _ _ _ _ _ _ h := h

end Bounds

/-- **Availability stays within bounds.**  Started from rows within bounds and nonnegative
requests, the control plane keeps every node row, and every copy of one that an operation holds
while one of its calls is in flight, between nothing and the capacity, whatever is in progress and
whichever calls fail. -/
theorem availability_inBounds {s : Store} (hb : ∀ n ∈ s.nodes.rows, n.InBounds)
    (hr : s.NonnegRequests) {P : Plane Store}
    (h : Pool.Reach onStore CapacityKept Starts ⟨[], s⟩ P) :
    (∀ n ∈ P.shared.nodes.rows, n.InBounds) ∧
      ∀ (i : Nat) (op : Operation) (m : Mem) (c : Call) (k : c.Ret → Prog Call Call.Ret Mem Unit),
        P.threads[i]? = some (op, .call m c k) → ∀ n ∈ m.nodes, n.InBounds := by
  have hstart : ∀ i op p (s : Store), Starts op p → Bounds.Inv s →
      p.wp (Bounds.outline.logic i op) (Bounds.outline.post i op) s := fun i op p s hp _ ↦
    hp ▸ Bounds.wp_thread op
  have hinit : Bounds.outline.Holds ⟨[], s⟩ := ⟨⟨hb, hr⟩, fun i op p hi ↦ by simp at hi⟩
  have hP := hinit.reach hstart h
  exact ⟨hP.1.1, fun i op m c k hi ↦ hP.held hi⟩

namespace Bounds

/-- A pass that has read the nodes when a report returns the job's GPU, and that then writes back
what it makes of its old copy. -/
def overlap : Plane Store :=
  Pool.play onStore (turns [0, 0, 1, 1, 1, 1, 0, 0, 0, 0, 0, 0])
    ⟨[(.tick ⟨.firstFit, ⟨1, 100, true, 100⟩⟩ ⟨2, 2⟩,
        (Operation.tick ⟨.firstFit, ⟨1, 100, true, 100⟩⟩ ⟨2, 2⟩).thread),
      (.report ⟨"v", "n", .completed⟩, (Operation.report ⟨"v", "n", .completed⟩).thread)],
      Small.halfUsed⟩

end Bounds

/-- The release is lost, but nothing is out of bounds. -/
theorem availability_inBounds_overlap :
    Pool.Reach onStore CapacityKept Starts ⟨[], Small.halfUsed⟩ Bounds.overlap ∧
      ∀ n ∈ Bounds.overlap.shared.nodes.rows, n.InBounds := by
  have h : Pool.Reach onStore CapacityKept Starts ⟨[], Small.halfUsed⟩ Bounds.overlap :=
    (reach_two _ _ _).trans (Pool.reach_play (by decide +kernel))
  exact ⟨h, (availability_inBounds (by decide) (by decide) h).1⟩

end GpuScheduler
