import GpuScheduler.Accounting.Release
import GpuScheduler.Concurrent.Operations
import GpuScheduler.Store.Rules

/-!
# The end of a job when calls fail

A job is ended by a report or by a cancel request, and either reads the job, reads its node, writes
the node and writes the job.  There is no transaction around this: what goes wrong with the node is
passed over, and what goes wrong with the job afterwards does not undo the write of the node.  So a
request that reports an error may have returned the resources, and one that reports success may not
have.  `finish_atomic_iff` says for which failures the two writes go together, and that requests
that are repeated under such failures return the resources once.
-/

namespace GpuScheduler

open Lib Models

/-! ## Requests and failures -/

/-- The status that the request gives to the job. -/
def Ending.status : Ending → JobStatus
  | completed _ _ => .completed
  | failed _ _ => .failed
  | cancelled _ => .cancelled

theorem Ending.isTerminal_status (x : Ending) : x.status.isTerminal = true := by cases x <;> rfl

/-- Serve the request, and return whether it reports success. -/
def Ending.serve : Ending → StoreM Bool
  | completed id nodeID => do
    let r ← Grpc.updateJobStatus ⟨id, nodeID, .completed⟩
    pure r.isOk
  | failed id nodeID => do
    let r ← Grpc.updateJobStatus ⟨id, nodeID, .failed⟩
    pure r.isOk
  | cancelled id => do
    let r ← Api.handleCancelJob id
    pure (r = .ok)

/-- Which of the calls that end a job fail.  Each is made at most once. -/
structure Faults where
  jobsGet : Bool
  nodesGet : Bool
  updateAvailability : Bool
  updateStatus : Bool
deriving DecidableEq, Repr

namespace Faults

variable {f : Faults} {job : Job} {m : Mem} {s : Store}

/-- The calls fail as given. -/
def admits (f : Faults) : Admits := fun _ c env _ ↦
  env.fails = match c with
    | .jobsGet _ => f.jobsGet
    | .nodesGet _ => f.nodesGet
    | .nodesUpdateAvailability _ _ _ _ => f.updateAvailability
    | .jobsUpdateStatus _ _ => f.updateStatus
    | _ => false

instance (f : Faults) (m : Mem) (c : Call) (env : Env) (s : Store) :
    Decidable (f.admits m c env s) := inferInstanceAs (Decidable (_ = _))

/-- Whether the write of the node's row is reached and succeeds. -/
def releases (f : Faults) (job : Job) : Bool :=
  job.nodeID ≠ "" && !f.nodesGet && !f.updateAvailability

/-- The store before the job's row is written. -/
def released (f : Faults) (job : Job) (s : Store) : Store :=
  if f.releases job then s.release job else s

theorem released_of_find? {n : Node} (hne : job.nodeID ≠ "") (hget : f.nodesGet = false)
    (hn : s.nodes.find? job.nodeID = some n) : f.released job s =
      if f.updateAvailability then s else s.writeBack (n.release job.resourceRequest) := by
  rw [released, releases, Store.release_of_find? hne hn]
  cases f.updateAvailability <;> simp [hne, hget]

theorem released_of_missing (h : f.nodesGet = true ∨ s.nodes.find? job.nodeID = none) :
    f.released job s = s := by
  rcases h with h | h
  · simp [released, releases, h]
  · rw [released, Store.release_of_missing h, ite_id]

theorem released_of_unassigned (h : job.nodeID = "") : f.released job s = s := by
  rw [released, Store.release_of_unassigned h, ite_id]

@[simp] theorem jobs_released : (f.released job s).jobs = s.jobs := by
  rw [released]
  split
  · exact Store.jobs_release
  · rfl

/-! ## One request -/

/-- Reading the job's node. -/
theorem wp_nodes_get {id : String} {Q : Except StoreError Node → Mem → Store → Prop}
    (hok : ∀ n, f.nodesGet = false → s.nodes.find? id = some n → Q (.ok n) m s)
    (hno : ∀ err, f.nodesGet = true ∨ s.nodes.find? id = none → Q (.error err) m s) :
    Wp f.admits (Nodes.get id) Q m s := by
  refine wp_issue (fun env henv hf ↦ ?_) ?_
  · simp only [Store.perform]
    cases hn : s.nodes.find? id with
    | none => exact hno _ (.inr hn)
    | some n => exact hok n (henv.symm.trans hf) hn
  · rintro ⟨env, henv, hf⟩
    exact hno _ (.inl (henv.symm.trans hf))

/-- Writing the job's node. -/
theorem wp_nodes_updateAvailability {n : Node} {Q : Except StoreError Unit → Mem → Store → Prop}
    (h : ∀ r, Q r m (if f.updateAvailability then s else s.writeBack n)) :
    Wp f.admits (Nodes.updateAvailability n) Q m s := by
  refine wp_issue (fun env henv hf ↦ ?_) ?_
  · have hupd : f.updateAvailability = false := henv.symm.trans hf
    rw [hupd] at h
    exact h _
  · rintro ⟨env, henv, hf⟩
    have hupd : f.updateAvailability = true := henv.symm.trans hf
    rw [hupd] at h
    exact h _

/-- Writing the job. -/
theorem wp_jobs_updateStatus {id : String} {st : JobStatus}
    {Q : Except StoreError Unit → Mem → Store → Prop}
    (hok : f.updateStatus = false → ∀ now, Q (.ok ()) m (s.updateStatus id st now))
    (herr : f.updateStatus = true → Q (.error .failure) m s) :
    Wp f.admits (Jobs.updateStatus id st) Q m s := by
  refine wp_issue (fun env henv hf ↦ hok (henv.symm.trans hf) env.now) ?_
  rintro ⟨env, henv, hf⟩
  exact herr (henv.symm.trans hf)

/-- What a request for the job may report, and what it then leaves in the store. -/
inductive Outcome (f : Faults) (st : JobStatus) (job : Job) (s : Store) : Bool → Store → Prop
  /-- The job cannot be read. -/
  | unread : f.jobsGet = true → Outcome f st job s false s
  /-- The job cannot be written. -/
  | unwritten : f.jobsGet = false → f.updateStatus = true →
      Outcome f st job s false (f.released job s)
  /-- The job is over. -/
  | ended (now : Time) : f.jobsGet = false → f.updateStatus = false →
      Outcome f st job s true ((f.released job s).updateStatus job.jobID st now)

/-- Returning the job's request to its node before going on with `fin`. -/
theorem wp_releaseThen {α : Type} {fin : StoreM α} {Q : α → Mem → Store → Prop}
    (hne : job.nodeID ≠ "") (hfin : ∀ m', Wp f.admits fin Q m' (f.released job s)) :
    Wp f.admits (do
      match ← Nodes.get job.nodeID with
      | .error _ => fin
      | .ok node => do
        let node := node.release job.resourceRequest
        Act.modify fun m ↦ { m with nodes := [node] }
        let _ ← Nodes.updateAvailability node
        fin) Q m s := by
  refine Act.wp_bind.mpr (wp_nodes_get (fun n hn hrow ↦ ?_) fun _ hno ↦ ?_)
  · refine Act.wp_bind.mpr (Act.wp_modify_alone.mpr (Act.wp_bind.mpr ?_))
    refine wp_nodes_updateAvailability fun _ ↦ ?_
    rw [← released_of_find? hne hn hrow]
    exact hfin _
  · rw [← released_of_missing (f := f) hno]
    exact hfin m

/-- The end of a job, once it was read. -/
theorem wp_releaseAndFinalize {st : JobStatus} (hget : f.jobsGet = false) :
    Wp f.admits (Grpc.releaseAndFinalize job st) (fun r _ t ↦ Outcome f st job s r.isOk t) m s := by
  have hfin : ∀ m', Wp f.admits (Jobs.updateStatus job.jobID st)
      (fun r _ t ↦ Outcome f st job s r.isOk t) m' (f.released job s) := fun m' ↦
    wp_jobs_updateStatus (fun hst now ↦ .ended now hget hst) fun hst ↦ .unwritten hget hst
  rw [Grpc.releaseAndFinalize]
  split
  · rename_i hne
    exact wp_releaseThen hne hfin
  · rename_i hne
    have hend := hfin m
    rwa [released_of_unassigned (not_not.mp hne)] at hend

/-- A report of a final status. -/
theorem wp_updateJobStatus {nodeID : String} {st : JobStatus} (hst : st = .completed ∨ st = .failed)
    (hj : s.jobs.find? job.jobID = some job) :
    Wp f.admits (Grpc.updateJobStatus ⟨job.jobID, nodeID, st⟩)
      (fun r _ t ↦ Outcome f st job s r.isOk t) m s := by
  refine Act.wp_bind.mpr (wp_issue (fun env henv hf ↦ ?_) ?_)
  · have hget : f.jobsGet = false := henv.symm.trans hf
    simp only [Store.perform, hj]
    -- both reports go through `releaseAndFinalize`, and answer with its error
    rcases hst with rfl | rfl
    all_goals
      refine Act.wp_bind.mpr ((wp_releaseAndFinalize hget).mono fun r m' t _ h ↦ ?_)
      cases r with
      | ok _ => exact Act.wp_pure_alone.mpr h
      | error _ => exact Act.wp_pure_alone.mpr h
  · rintro ⟨env, henv, hf⟩
    exact Act.wp_pure_alone.mpr (.unread (henv.symm.trans hf))

/-- A cancel request for an active job. -/
theorem wp_handleCancelJob (hj : s.jobs.find? job.jobID = some job)
    (hact : job.status.isActive = true) :
    Wp f.admits (Api.handleCancelJob job.jobID)
      (fun r _ t ↦ Outcome f .cancelled job s (r = .ok) t) m s := by
  refine Act.wp_bind.mpr (wp_issue (fun env henv hf ↦ ?_) ?_)
  · have hget : f.jobsGet = false := henv.symm.trans hf
    have hfin : ∀ m', Wp f.admits (Api.finishCancel job)
        (fun r _ t ↦ Outcome f .cancelled job s (r = .ok) t) m' (f.released job s) := by
      intro m'
      refine Act.wp_bind.mpr (wp_jobs_updateStatus (fun hst now ↦ ?_) fun hst ↦ ?_)
      · exact Act.wp_pure_alone.mpr (.ended now hget hst)
      · exact Act.wp_pure_alone.mpr (.unwritten hget hst)
    simp only [Store.perform, hj, JobStatus.isTerminal_of_isActive hact, Bool.false_eq_true,
      if_false, hact, Bool.true_and, decide_eq_true_eq]
    split
    · rename_i hne
      exact wp_releaseThen hne hfin
    · rename_i hne
      have hend := hfin m
      rwa [released_of_unassigned (not_not.mp hne)] at hend
  · rintro ⟨env, henv, hf⟩
    exact Act.wp_pure_alone.mpr (.unread (henv.symm.trans hf))

/-- **One request** for an active job. -/
theorem outcome_of_serve {x : Ending} {ok : Bool} {t : Store} (hx : x.jobID = job.jobID)
    (hj : s.jobs.find? job.jobID = some job) (hact : job.status.isActive = true)
    (hrun : Runs f.admits x.serve s ok t) : Outcome f x.status job s ok t := by
  refine hrun.of_wp (Q := Outcome f x.status job s) ?_
  cases x with
  | completed id nodeID =>
      obtain rfl : id = job.jobID := hx
      exact Act.wp_bind.mpr ((wp_updateJobStatus (.inl rfl) hj).mono fun _ _ _ _ h ↦
        Act.wp_pure_alone.mpr h)
  | failed id nodeID =>
      obtain rfl : id = job.jobID := hx
      exact Act.wp_bind.mpr ((wp_updateJobStatus (.inr rfl) hj).mono fun _ _ _ _ h ↦
        Act.wp_pure_alone.mpr h)
  | cancelled id =>
      obtain rfl : id = job.jobID := hx
      exact Act.wp_bind.mpr ((wp_handleCancelJob hj hact).mono fun _ _ _ _ h ↦
        Act.wp_pure_alone.mpr h)

end Faults

/-! ## All or nothing -/

/-- A request that reports an error has changed neither a job nor a node, and one that reports
success has ended the job and returned just what it asks for to its node. -/
structure AtomicEnd (job : Job) (s : Store) (ok : Bool) (t : Store) : Prop where
  error : ok = false → t.jobs = s.jobs ∧ t.nodes = s.nodes
  success : ok = true →
    (∃ j, t.jobs.find? job.jobID = some j ∧ j.status.isTerminal = true) ∧
    ∀ n, s.nodes.find? job.nodeID = some n →
      ∃ n', t.nodes.find? job.nodeID = some n' ∧ ∀ d, n'.avail d = n.avail d + job.request d

/-- The node's row is written exactly when the job's is, unless the job cannot even be read or there
is nothing to return. -/
def Faults.Harmless (f : Faults) (job : Job) (s : Store) : Prop :=
  f.jobsGet = true ∨ (∀ d, job.request d = 0) ∨ s.nodes.find? job.nodeID = none ∨
    (f.releases job = true ↔ f.updateStatus = false)

section Atomic

variable {f : Faults} {job : Job} {s t : Store} {n : Node} {st : JobStatus} {ok : Bool}

/-- Nothing that an active job returns is cut at the capacity. -/
theorem avail_release_of_active (hacc : s.Accounted) (hreq : s.NonnegRequests)
    (hj : s.jobs.find? job.jobID = some job) (hact : job.status.isActive = true)
    (hn : s.nodes.find? job.nodeID = some n) (d : Resource) :
    (n.release job.resourceRequest).avail d = n.avail d + job.request d := by
  have hle := Store.request_le_load hreq hj hact d
  have hbooks := hacc n (Table.mem_of_find? hn) d
  rw [Table.key_of_find? hn] at hbooks
  rw [Node.avail_release]
  exact min_eq_right (by change n.avail d + job.request d ≤ _; omega)

/-- The end of an active job leaves the nodes as they are only when it has nothing to return. -/
theorem nodes_release_eq_iff (hacc : s.Accounted) (hreq : s.NonnegRequests)
    (hj : s.jobs.find? job.jobID = some job) (hact : job.status.isActive = true)
    (hne : job.nodeID ≠ "") :
    (s.release job).nodes = s.nodes ↔
      (∀ d, job.request d = 0) ∨ s.nodes.find? job.nodeID = none := by
  cases hn : s.nodes.find? job.nodeID with
  | none => simp [Store.release_of_missing hn]
  | some n =>
      have havail := avail_release_of_active hacc hreq hj hact hn
      have hself := Store.find?_release_self (s := s) hne
      rw [hn, Option.map_some] at hself
      constructor
      · intro heq
        rw [heq, hn, Option.some.injEq] at hself
        refine .inl fun d ↦ ?_
        have hd := havail d
        rw [← hself] at hd
        omega
      · intro hzero
        have hback : n.release job.resourceRequest = n := by
          refine Node.eq_of_avail_eq rfl fun d ↦ ?_
          rw [havail, hzero.resolve_right (by simp) d, add_zero]
        rw [Store.release_of_find? hne hn, hback]
        exact Store.nodes_writeBack_self (Table.mem_of_find? hn)

/-- When the job's row is not written, the node's row must not be either. -/
theorem atomicEnd_error_iff (hacc : s.Accounted) (hreq : s.NonnegRequests)
    (hj : s.jobs.find? job.jobID = some job) (hact : job.status.isActive = true) :
    AtomicEnd job s false (f.released job s) ↔
      (∀ d, job.request d = 0) ∨ s.nodes.find? job.nodeID = none ∨ f.releases job = false := by
  have herror : AtomicEnd job s false (f.released job s) ↔
      (f.released job s).nodes = s.nodes := by
    constructor
    · intro h
      exact (h.error rfl).2
    · intro h
      exact ⟨fun _ ↦ ⟨Faults.jobs_released, h⟩, fun hc ↦ absurd hc (by decide)⟩
  rw [herror, Faults.released]
  cases hrel : f.releases job with
  | false => simp
  | true =>
      have hne : job.nodeID ≠ "" := by
        rintro heq
        simp [Faults.releases, heq] at hrel
      simpa using nodes_release_eq_iff hacc hreq hj hact hne

/-- When the job's row is written, the node's row must be written too. -/
theorem atomicEnd_success_iff (hacc : s.Accounted) (hreq : s.NonnegRequests)
    (hj : s.jobs.find? job.jobID = some job) (hact : job.status.isActive = true)
    (hst : st.isTerminal = true) (now : Time) :
    AtomicEnd job s true ((f.released job s).updateStatus job.jobID st now) ↔
      (∀ d, job.request d = 0) ∨ s.nodes.find? job.nodeID = none ∨ f.releases job = true := by
  have hover : ((f.released job s).updateStatus job.jobID st now).jobs.find? job.jobID =
      some (job.withStatus st now) := by
    rw [Store.jobs_updateStatus, Table.find?_modify_self, Faults.jobs_released, hj,
      Option.map_some]
  have hsuccess : AtomicEnd job s true ((f.released job s).updateStatus job.jobID st now) ↔
      ∀ n, s.nodes.find? job.nodeID = some n → ∃ n', (f.released job s).nodes.find? job.nodeID =
        some n' ∧ ∀ d, n'.avail d = n.avail d + job.request d := by
    constructor
    · intro h
      exact (h.success rfl).2
    · intro h
      exact ⟨fun hc ↦ absurd hc (by decide), fun _ ↦ ⟨⟨_, hover, hst⟩, h⟩⟩
  rw [hsuccess, Faults.released]
  cases hn : s.nodes.find? job.nodeID with
  | none => simp
  | some n =>
      cases hrel : f.releases job with
      | true =>
          have hne : job.nodeID ≠ "" := by
            rintro heq
            simp [Faults.releases, heq] at hrel
          refine iff_of_true ?_ (.inr (.inr rfl))
          rintro _ ⟨⟩
          refine ⟨n.release job.resourceRequest, ?_, avail_release_of_active hacc hreq hj hact hn⟩
          rw [if_pos rfl, Store.find?_release_self hne, hn, Option.map_some]
      | false => simp [hn]

/-- **A request is all or nothing** exactly when the failures are harmless. -/
theorem Faults.Outcome.atomicEnd_iff (hacc : s.Accounted) (hreq : s.NonnegRequests)
    (hj : s.jobs.find? job.jobID = some job) (hact : job.status.isActive = true)
    (hst : st.isTerminal = true) (h : f.Outcome st job s ok t) :
    AtomicEnd job s ok t ↔ f.Harmless job s := by
  cases h with
  | unread hget =>
      exact iff_of_true ⟨fun _ ↦ ⟨rfl, rfl⟩, fun hc ↦ absurd hc (by decide)⟩ (.inl hget)
  | unwritten hget hupd =>
      rw [atomicEnd_error_iff hacc hreq hj hact, Faults.Harmless, hget, hupd]
      simp
  | ended now hget hupd =>
      rw [atomicEnd_success_iff hacc hreq hj hact hst, Faults.Harmless, hget, hupd]
      simp

end Atomic

/-! ## Repeated requests -/

/-- The request is made again and again until it reports success; the list tells what fails each
time. -/
inductive Retried (x : Ending) : List Faults → Store → Store → Prop
  | done {f : Faults} {s t : Store} : Runs f.admits x.serve s true t → Retried x [f] s t
  | again {f : Faults} {fs : List Faults} {s t u : Store} :
      Runs f.admits x.serve s false t → Retried x fs t u → Retried x (f :: fs) s u

/-- Under harmless failures a request that reports an error may as well not have been made, so that
only the last one counts. -/
theorem Retried.atomicEnd {x : Ending} {job : Job} {fs : List Faults} {s t : Store}
    (h : Retried x fs s t) (hacc : s.Accounted) (hreq : s.NonnegRequests)
    (hx : x.jobID = job.jobID) (hj : s.jobs.find? job.jobID = some job)
    (hact : job.status.isActive = true) (hfs : ∀ f ∈ fs, f.Harmless job s) :
    AtomicEnd job s true t := by
  induction h with
  | done hrun =>
      have hout := Faults.outcome_of_serve hx hj hact hrun
      exact (hout.atomicEnd_iff hacc hreq hj hact x.isTerminal_status).mpr
        (hfs _ List.mem_cons_self)
  | @again f fs s t u hrun _ ih =>
      have hout := Faults.outcome_of_serve hx hj hact hrun
      obtain ⟨hjobs, hnodes⟩ := ((hout.atomicEnd_iff hacc hreq hj hact x.isTerminal_status).mpr
        (hfs f List.mem_cons_self)).error rfl
      have hacc' : t.Accounted := by
        intro n hn d
        rw [hnodes] at hn
        rw [hacc n hn d, Store.load, Store.load, hjobs]
      have hreq' : t.NonnegRequests := by
        intro j hjt
        rw [hjobs] at hjt
        exact hreq j hjt
      have hlast := ih hacc' hreq' (by rw [hjobs]; exact hj) fun g hg ↦ by
        have hharm := hfs g (List.mem_cons_of_mem f hg)
        rwa [Faults.Harmless, ← hnodes] at hharm
      refine ⟨fun hc ↦ absurd hc (by decide), fun _ ↦ ?_⟩
      rw [← hnodes]
      exact hlast.success rfl

/-- **The end of a job is all or nothing** exactly when the failures are harmless, and a request
that is repeated under harmless failures until it succeeds returns the resources once. -/
theorem finish_atomic_iff (x : Ending) (job : Job) (s : Store) (hacc : s.Accounted)
    (hreq : s.NonnegRequests) (hx : x.jobID = job.jobID)
    (hj : s.jobs.find? job.jobID = some job) (hact : job.status.isActive = true) :
    (∀ f ok t, Runs (Faults.admits f) x.serve s ok t →
      (AtomicEnd job s ok t ↔ f.Harmless job s)) ∧
    ∀ fs t, Retried x fs s t → (∀ f ∈ fs, Faults.Harmless f job s) → AtomicEnd job s true t := by
  constructor
  · intro f ok t hrun
    have hout := Faults.outcome_of_serve hx hj hact hrun
    exact hout.atomicEnd_iff hacc hreq hj hact x.isTerminal_status
  · intro fs t hretried hfs
    exact hretried.atomicEnd hacc hreq hx hj hact hfs

/-- A job that shares its node ... -/
def sharingJob : Job := Small.job "a" .running 1 1 "n" 1

/-- ... with another one. -/
def sharedStore : Store :=
  Small.store [sharingJob, Small.job "b" .running 1 1 "n" 2] [Small.node "n" .ready 2 0]

/-- A report that cannot read the job is repeated. -/
theorem finish_atomic_small : ∃ t, Retried (.completed "a" "n")
    [⟨true, false, false, false⟩, ⟨false, false, false, false⟩] sharedStore t ∧
      AtomicEnd sharingJob sharedStore true t := by
  have hfirst : Runs (Faults.admits ⟨true, false, false, false⟩) (Ending.completed "a" "n").serve
      sharedStore false sharedStore := by
    have hadmits : ((Ending.completed "a" "n").serve default).Admits Store.exec
        (Faults.admits ⟨true, false, false, false⟩) (fun _ ↦ ⟨true, 1⟩) sharedStore := by decide
    exact runs_runOp hadmits
  have hsecond : Runs (Faults.admits ⟨false, false, false, false⟩)
      (Ending.completed "a" "n").serve sharedStore true
      (runOp (Ending.completed "a" "n").serve calm sharedStore).2 := by
    exact runs_runOp (ω := calm) (by decide)
  refine ⟨_, .again hfirst (.done hsecond), ?_⟩
  refine (finish_atomic_iff (.completed "a" "n") sharingJob sharedStore (by decide) (by decide) rfl
    (by decide) rfl).2 _ _ (.again hfirst (.done hsecond)) fun f hf ↦ ?_
  simp only [List.mem_cons, List.not_mem_nil, or_false] at hf
  rcases hf with rfl | rfl
  · exact .inl rfl
  · exact .inr (.inr (.inr (by decide)))

/-- A report that cannot write the job has returned its resources nevertheless, and returns them
again when it is repeated, at the expense of the other job; and a cancel request that cannot write
the node reports success without returning anything. -/
theorem finish_not_atomic :
    (∃ t, Runs (Faults.admits ⟨false, false, false, true⟩) (Ending.completed "a" "n").serve
      sharedStore false t ∧ ¬ AtomicEnd sharingJob sharedStore false t) ∧
    (∃ t, Retried (.completed "a" "n") [⟨false, false, false, true⟩, ⟨false, false, false, false⟩]
      sharedStore t ∧ ¬ AtomicEnd sharingJob sharedStore true t) ∧
    ∃ t, Runs (Faults.admits ⟨false, false, true, false⟩) (Ending.cancelled "a").serve
      sharedStore true t ∧ ¬ AtomicEnd sharingJob sharedStore true t := by
  have hfirst : Runs (Faults.admits ⟨false, false, false, true⟩) (Ending.completed "a" "n").serve
      sharedStore false
      (runOp (Ending.completed "a" "n").serve (fun n ↦ ⟨n = 3, 1⟩) sharedStore).2 := by
    have hadmits : ((Ending.completed "a" "n").serve default).Admits Store.exec
        (Faults.admits ⟨false, false, false, true⟩) (fun n ↦ ⟨n = 3, 1⟩) sharedStore := by decide
    exact runs_runOp hadmits
  -- a request that succeeds leaves one GPU available, the one that the other job does not hold
  have hwrong : ∀ t : Store, (t.nodes.find? "n").map Node.gpuAvailable ≠ some 1 →
      ¬ AtomicEnd sharingJob sharedStore true t := by
    intro t hne h
    obtain ⟨n, hn, havail⟩ := (h.success rfl).2 (Small.node "n" .ready 2 0) (by decide)
    change t.nodes.find? "n" = some n at hn
    rw [hn] at hne
    exact hne (congrArg some (havail .gpu))
  refine ⟨⟨_, hfirst, fun h ↦ ?_⟩, ⟨_, .again hfirst (.done (runs_runOp (ω := calm) (by decide))),
    fun h ↦ ?_⟩, ⟨_, runs_runOp (ω := fun n ↦ ⟨n = 2, 1⟩) (by decide), fun h ↦ ?_⟩⟩
  · have hg := congrArg (fun t ↦ (t.find? "n").map Node.gpuAvailable) (h.error rfl).2
    exact absurd hg (by decide)
  · exact hwrong _ (by decide) h
  · exact hwrong _ (by decide) h

end GpuScheduler
