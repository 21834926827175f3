import GpuScheduler.Api.Rules
import GpuScheduler.Concurrent.Operations
import GpuScheduler.Lib.Clamp

/-!
# How often a placement is released

A job's resources are returned when it is reported completed or failed and when it is cancelled.
Cancelling looks at the job's status first; a report does not.  So a report that comes after the
job is over returns the resources once more, and the ceiling at the node's capacity hides this
only when nobody else is on the node.

`releasedOnce_iff` says for which jobs and which sequences of such requests, served one after the
other, the resources are returned exactly once.
-/

namespace GpuScheduler

open Lib Models

/-- Whether the request is a cancel request. -/
def Ending.isCancel : Ending → Bool
  | .cancelled _ => true
  | _ => false

/-- The requests are served one after the other, and no call fails. -/
inductive Served : List Ending → Store → Store → Prop
  | nil (s : Store) : Served [] s s
  | cons {x : Ending} {xs : List Ending} {s t u : Store} :
      x.operation.Runs NoError s t → Served xs t u → Served (x :: xs) s u

/-- The node of the job has the job's request more available, and the other nodes are as before. -/
structure ReleasedOnce (job : Job) (s t : Store) : Prop where
  node : (t.nodes.find? job.nodeID).map Node.avail =
    (s.nodes.find? job.nodeID).map fun n d ↦ n.avail d + job.request d
  others : ∀ id, id ≠ job.nodeID →
    (t.nodes.find? id).map Node.avail = (s.nodes.find? id).map Node.avail

/-! ## One request -/

variable {s t : Store} {job : Job}

/-- A report ends a job, whatever its status. -/
theorem runs_report {nodeID : String} {st : JobStatus} (hst : st = .completed ∨ st = .failed)
    (hj : s.jobs.find? job.jobID = some job)
    (h : (Operation.report ⟨job.jobID, nodeID, st⟩).Runs NoError s t) :
    ∃ now, t = (s.release job).updateStatus job.jobID st now := by
  have hne : st ≠ .running := by rcases hst with rfl | rfl <;> decide
  obtain ⟨now, -, ht⟩ := h.final (wp_thread_alone (Grpc.wp_updateJobStatus_ok
    (not_canFail fun _ _ _ _ h ↦ h) hj (by rcases hst with rfl | rfl <;> simp)))
  exact ⟨now, ht.trans (by rw [if_neg hne])⟩

/-- A cancel request does nothing to a job that is over ... -/
theorem runs_cancel_terminal (hj : s.jobs.find? job.jobID = some job)
    (hst : job.status.isTerminal = true) (h : (Operation.cancel job.jobID).Runs NoError s t) :
    t = s := by
  refine h.final (P := fun t ↦ t = s) (wp_thread_alone (Api.wp_handleCancelJob
    (fun _ _ ↦ rfl) fun job' hj' hterm ↦ ?_))
  obtain rfl : job = job' := Option.some.inj (hj.symm.trans hj')
  rw [hst] at hterm
  cases hterm

/-- ... and ends one that is on a node. -/
theorem runs_cancel_active (hj : s.jobs.find? job.jobID = some job)
    (hact : job.status.isActive = true) (h : (Operation.cancel job.jobID).Runs NoError s t) :
    ∃ now, t = (s.release job).updateStatus job.jobID .cancelled now := by
  have hok : ¬ CanFail NoError := not_canFail fun _ _ _ _ h ↦ h
  refine h.final (P := fun t ↦ ∃ now, t = (s.release job).updateStatus job.jobID .cancelled now)
    (wp_thread_alone (Api.wp_handleCancelJob ?_ ?_))
  · rintro (hnone | hf | ⟨job', hj', hterm⟩) resp
    · rw [hj] at hnone
      cases hnone
    · exact absurd hf hok
    · obtain rfl : job = job' := Option.some.inj (hj.symm.trans hj')
      rw [JobStatus.isTerminal_of_isActive hact] at hterm
      cases hterm
  · intro job' hj' _ s' _ hs'
    obtain rfl : job = job' := Option.some.inj (hj.symm.trans hj')
    rw [if_pos hact] at hs'
    obtain rfl : s' = s.release job := hs'.resolve_right fun hf ↦ hok hf.1
    exact ⟨fun now ↦ ⟨now, rfl⟩, fun hf ↦ absurd hf hok⟩

/-- The first request ends the job. -/
theorem Ending.runs_active {x : Ending} (hx : x.jobID = job.jobID)
    (hj : s.jobs.find? job.jobID = some job) (hact : job.status.isActive = true)
    (h : x.operation.Runs NoError s t) :
    ∃ st now, st.isTerminal = true ∧ t = (s.release job).updateStatus job.jobID st now := by
  cases x with
  | completed id nodeID =>
      obtain rfl : id = job.jobID := hx
      obtain ⟨now, ht⟩ := runs_report (.inl rfl) hj h
      exact ⟨_, now, rfl, ht⟩
  | failed id nodeID =>
      obtain rfl : id = job.jobID := hx
      obtain ⟨now, ht⟩ := runs_report (.inr rfl) hj h
      exact ⟨_, now, rfl, ht⟩
  | cancelled id =>
      obtain rfl : id = job.jobID := hx
      obtain ⟨now, ht⟩ := runs_cancel_active hj hact h
      exact ⟨_, now, rfl, ht⟩

/-- A request for a job that is over is refused, or ends the job once more. -/
theorem Ending.runs_terminal {x : Ending} (hx : x.jobID = job.jobID)
    (hj : s.jobs.find? job.jobID = some job) (hst : job.status.isTerminal = true)
    (h : x.operation.Runs NoError s t) :
    (x.isCancel = true ∧ t = s) ∨ (x.isCancel = false ∧ ∃ st now, st.isTerminal = true ∧
      t = (s.release job).updateStatus job.jobID st now) := by
  cases x with
  | completed id nodeID =>
      obtain rfl : id = job.jobID := hx
      obtain ⟨now, ht⟩ := runs_report (.inl rfl) hj h
      exact .inr ⟨rfl, _, now, rfl, ht⟩
  | failed id nodeID =>
      obtain rfl : id = job.jobID := hx
      obtain ⟨now, ht⟩ := runs_report (.inr rfl) hj h
      exact .inr ⟨rfl, _, now, rfl, ht⟩
  | cancelled id =>
      obtain rfl : id = job.jobID := hx
      exact .inl ⟨rfl, runs_cancel_terminal hj hst h⟩

/-- The row after a release and a final status. -/
theorem find?_ended (hj : s.jobs.find? job.jobID = some job) (st : JobStatus) (now : Time) :
    ((s.release job).updateStatus job.jobID st now).jobs.find? job.jobID =
      some (job.withStatus st now) := by
  rw [Store.jobs_updateStatus, Table.find?_modify_self, Store.jobs_release, hj, Option.map_some]

/-! ## Sequences of requests -/

/-- What a sequence of requests for a job that is over credits the job's node with. -/
def creditsAgain (xs : List Ending) (amount : Int) : List (Credit Int) :=
  (xs.filter fun x ↦ !x.isCancel).map fun _ ↦ ⟨amount, true⟩

theorem creditsAgain_cancel {x : Ending} (hx : x.isCancel = true) (xs : List Ending)
    (amount : Int) : creditsAgain (x :: xs) amount = creditsAgain xs amount := by
  simp [creditsAgain, hx]

theorem creditsAgain_report {x : Ending} (hx : x.isCancel = false) (xs : List Ending)
    (amount : Int) :
    creditsAgain (x :: xs) amount = ⟨amount, true⟩ :: creditsAgain xs amount := by
  simp [creditsAgain, hx]

theorem mem_creditsAgain {xs : List Ending} {amount : Int} {k : Credit Int} :
    k ∈ creditsAgain xs amount ↔ k = ⟨amount, true⟩ ∧ ∃ x ∈ xs, x.isCancel = false := by
  simp only [creditsAgain, List.mem_map, List.mem_filter, Bool.not_eq_true']
  constructor
  · rintro ⟨x, ⟨hx, hc⟩, rfl⟩
    exact ⟨rfl, x, hx, hc⟩
  · rintro ⟨rfl, x, hx, hc⟩
    exact ⟨x, ⟨hx, hc⟩, rfl⟩

/-- Nothing that is credited again is owed. -/
theorem owed_creditsAgain (xs : List Ending) (amount : Int) :
    owed (creditsAgain xs amount) = 0 := by
  induction xs with
  | nil => rfl
  | cons x xs ih =>
      cases hx : x.isCancel with
      | true => rw [creditsAgain_cancel hx, ih]
      | false => rw [creditsAgain_report hx, owed_cons, ih]; rfl

/-- A job that was on no node has nothing to return. -/
theorem Served.nodes_of_unassigned {xs : List Ending} (h : Served xs s t)
    (hids : ∀ x ∈ xs, x.jobID = job.jobID) (hj : s.jobs.find? job.jobID = some job)
    (hst : job.status.isTerminal = true) (hid : job.nodeID = "") : t.nodes = s.nodes := by
  induction h generalizing job with
  | nil s => rfl
  | @cons x xs s t u hx _ ih =>
      have hids' : ∀ y ∈ xs, y.jobID = job.jobID := fun y hy ↦ hids y (List.mem_cons_of_mem x hy)
      rcases Ending.runs_terminal (hids x List.mem_cons_self) hj hst hx with
        ⟨-, rfl⟩ | ⟨-, st, now, hterm, rfl⟩
      · exact ih hids' hj hst hid
      · have hnodes := @ih (job.withStatus st now) hids' (find?_ended hj st now) hterm hid
        rw [hnodes, Store.nodes_updateStatus, Store.release_of_unassigned hid]

/-- Requests for a job that is over: each report credits the job's node once more, and nothing
else happens to the nodes. -/
theorem Served.nodes_of_terminal {xs : List Ending} (h : Served xs s t)
    (hids : ∀ x ∈ xs, x.jobID = job.jobID) (hj : s.jobs.find? job.jobID = some job)
    (hst : job.status.isTerminal = true) (hid : job.nodeID ≠ "") :
    (∀ id, id ≠ job.nodeID → t.nodes.find? id = s.nodes.find? id) ∧
      ∀ n, s.nodes.find? job.nodeID = some n → ∃ n', t.nodes.find? job.nodeID = some n' ∧
        n'.cap = n.cap ∧ ∀ d, n'.avail d =
          settle (n.cap d) (n.avail d) (creditsAgain xs (job.request d)) := by
  induction h generalizing job with
  | nil s => exact ⟨fun _ _ ↦ rfl, fun n hn ↦ ⟨n, hn, rfl, fun _ ↦ rfl⟩⟩
  | @cons x xs s t u hx _ ih =>
      have hids' : ∀ y ∈ xs, y.jobID = job.jobID := fun y hy ↦ hids y (List.mem_cons_of_mem x hy)
      rcases Ending.runs_terminal (hids x List.mem_cons_self) hj hst hx with
        ⟨hc, rfl⟩ | ⟨hc, st, now, hterm, rfl⟩
      · simp only [creditsAgain_cancel hc]
        exact ih hids' hj hst hid
      · obtain ⟨hothers, hnode⟩ := @ih (job.withStatus st now) hids'
          (find?_ended hj st now) hterm hid
        refine ⟨fun id hne ↦ ?_, fun n hn ↦ ?_⟩
        · rw [hothers id hne, Store.nodes_updateStatus, Store.find?_release_of_ne hne]
        · obtain ⟨n', hn', hcap, havail⟩ := hnode (n.release job.resourceRequest) (by
            change (s.release job).nodes.find? job.nodeID = _
            rw [Store.find?_release_self hid, hn, Option.map_some])
          refine ⟨n', hn', hcap.trans (Node.cap_release _ _), fun d ↦ ?_⟩
          rw [havail d, creditsAgain_report hc, settle, Node.avail_release, Node.cap_release]
          rfl

/-! ## Exactly once -/

/-- One release that is owed and any number of further ones amount to a single release if and only
if there are none of these, or they return nothing, or nothing is left to return. -/
theorem settle_release_iff {c S r : Int} (hr : 0 ≤ r) (hrS : r ≤ S) (xs : List Ending) :
    settle c (c - S) (⟨r, false⟩ :: creditsAgain xs r) = c - S + r ↔
      (∀ y ∈ xs, y.isCancel = true) ∨ r = 0 ∨ S = r := by
  have howed : owed (⟨r, false⟩ :: creditsAgain xs r) = r := by
    rw [owed_cons, owed_creditsAgain, add_zero]
    rfl
  have hamount : ∀ k ∈ (⟨r, false⟩ : Credit Int) :: creditsAgain xs r, 0 ≤ k.amount := by
    intro k hk
    rcases List.mem_cons.mp hk with rfl | hk
    · exact hr
    · rw [(mem_creditsAgain.mp hk).1]
      exact hr
  obtain ⟨e, hset, -, -, he⟩ := settle_excess (c := c) (e := 0) hamount le_rfl (hr.trans hrS)
    (howed.trans_le hrS)
  rw [add_zero] at hset
  rw [hset, howed]
  rw [howed] at he
  have hzero : c - (S - r) + e = c - S + r ↔ e = 0 := by omega
  have hagain : (∀ k ∈ (⟨r, false⟩ : Credit Int) :: creditsAgain xs r,
      k.again = true → k.amount = 0) ↔ (∀ y ∈ xs, y.isCancel = true) ∨ r = 0 := by
    constructor
    · intro h
      by_cases hc : ∀ y ∈ xs, y.isCancel = true
      · exact .inl hc
      · push Not at hc
        obtain ⟨y, hy, hyc⟩ := hc
        have hmem : (⟨r, true⟩ : Credit Int) ∈ creditsAgain xs r :=
          mem_creditsAgain.mpr ⟨rfl, y, hy, Bool.eq_false_iff.mpr hyc⟩
        exact .inr (h _ (List.mem_cons_of_mem _ hmem) rfl)
    · rintro h k hk hag
      rcases List.mem_cons.mp hk with rfl | hk
      · cases hag
      · obtain ⟨rfl, y, hy, hyc⟩ := mem_creditsAgain.mp hk
        rcases h with h | h
        · rw [h y hy] at hyc
          cases hyc
        · exact h
  rw [hzero, he, hagain, sub_eq_zero, and_iff_right rfl, or_comm, or_assoc]

/-- Whether a placement was released exactly once can be seen from the availabilities of its
node. -/
theorem releasedOnce_iff_avail {n n' : Node} (hn : s.nodes.find? job.nodeID = some n)
    (hn' : t.nodes.find? job.nodeID = some n')
    (hothers : ∀ id, id ≠ job.nodeID → t.nodes.find? id = s.nodes.find? id) :
    ReleasedOnce job s t ↔ ∀ d, n'.avail d = n.avail d + job.request d := by
  constructor
  · intro hrel
    have hnode := hrel.node
    rw [hn', hn, Option.map_some, Option.map_some, Option.some.injEq] at hnode
    exact congrFun hnode
  · intro havail
    refine ⟨?_, fun id hne ↦ by rw [hothers id hne]⟩
    rw [hn', hn, Option.map_some, Option.map_some]
    exact congrArg some (funext havail)

/-- **When a placement is released exactly once.**  From a state in which the books are right, at
least one request is served that ends a job that is on a node.  Its resources are returned exactly
once, and nothing else changes, if and only if the job is on a node with a proper ID (or asks for
nothing), and either all requests after the first are cancel requests, or the job is the only one
on its node to hold what it asked for. -/
theorem releasedOnce_iff (ha : s.Accounted) (hr : s.NonnegRequests)
    (hj : s.jobs.find? job.jobID = some job) (hact : job.status.isActive = true) {n : Node}
    (hn : s.nodes.find? job.nodeID = some n) {x : Ending} {xs : List Ending}
    (hids : ∀ y ∈ x :: xs, y.jobID = job.jobID) (h : Served (x :: xs) s t) :
    ReleasedOnce job s t ↔
      (job.nodeID ≠ "" ∨ ∀ d, job.request d = 0) ∧
        ((∀ y ∈ xs, y.isCancel = true) ∨
          ∀ d, job.request d = 0 ∨ s.load job.nodeID d = job.request d) := by
  obtain ⟨t₁, hx, hxs⟩ : ∃ t₁, x.operation.Runs NoError s t₁ ∧ Served xs t₁ t := by
    cases h with
    | cons hx hxs => exact ⟨_, hx, hxs⟩
  obtain ⟨st, now, hst, rfl⟩ := Ending.runs_active (hids x List.mem_cons_self) hj hact hx
  have hids' : ∀ y ∈ xs, y.jobID = (job.withStatus st now).jobID := fun y hy ↦
    hids y (List.mem_cons_of_mem x hy)
  by_cases hid : job.nodeID = ""
  · -- nothing is returned, so nothing may have been asked for
    have hnodes : t.nodes = s.nodes := by
      rw [hxs.nodes_of_unassigned hids' (find?_ended hj st now) hst hid, Store.nodes_updateStatus,
        Store.release_of_unassigned hid]
    have hzero : ReleasedOnce job s t ↔ ∀ d, job.request d = 0 := by
      rw [releasedOnce_iff_avail hn (hnodes ▸ hn) fun id _ ↦ by rw [hnodes]]
      exact forall_congr' fun d ↦ left_eq_add
    rw [hzero]
    constructor
    · intro hnone
      exact ⟨.inr hnone, .inr fun d ↦ .inl (hnone d)⟩
    · rintro ⟨hne | hnone, -⟩
      · exact absurd hid hne
      · exact hnone
  · obtain ⟨hothers, hnode⟩ := hxs.nodes_of_terminal hids' (find?_ended hj st now) hst hid
    obtain ⟨n', hn', -, havail⟩ := hnode (n.release job.resourceRequest) (by
      change (s.release job).nodes.find? job.nodeID = _
      rw [Store.find?_release_self hid, hn, Option.map_some])
    have hothers' : ∀ id, id ≠ job.nodeID → t.nodes.find? id = s.nodes.find? id := fun id hne ↦ by
      rw [hothers id hne, Store.nodes_updateStatus, Store.find?_release_of_ne hne]
    -- resource by resource, the node is credited once for the first request and then again
    have hd : ∀ d, n'.avail d = n.avail d + job.request d ↔ (∀ y ∈ xs, y.isCancel = true) ∨
        job.request d = 0 ∨ s.load job.nodeID d = job.request d := fun d ↦ by
      have hcap := ha n (Table.mem_of_find? hn) d
      rw [Table.key_of_find? hn] at hcap
      rw [← settle_release_iff (c := n.cap d) (hr job (Table.mem_of_find? hj) d)
        (Store.request_le_load hr hj hact d) xs, havail d, Node.avail_release, Node.cap_release,
        settle, ← hcap]
      rfl
    rw [releasedOnce_iff_avail hn hn' hothers', forall_congr' hd, forall_or_left,
      and_iff_right (Or.inl hid)]

namespace ReleaseOnce

/-- Two jobs hold a GPU each of a node that has two. -/
def shared : Store :=
  Small.store [Small.job "v" .running 1 1 "n" 0, Small.job "w" .running 1 1 "n" 1]
    [Small.node "n" .ready 2 0]

/-- The store after two requests. -/
def after (x y : Ending) : Store := y.operation.run calm (x.operation.run calm shared)

theorem served {x y : Ending}
    (hx : x.operation.thread.Admits Store.exec NoError calm shared)
    (hy : y.operation.thread.Admits Store.exec NoError calm (x.operation.run calm shared)) :
    Served [x, y] shared (after x y) :=
  .cons (Operation.runs_run hx) (.cons (Operation.runs_run hy) (.nil _))

end ReleaseOnce

/-- A cancel request that comes after the report is refused. -/
theorem releasedOnce_report_cancel :
    ReleasedOnce (Small.job "v" .running 1 1 "n" 0) ReleaseOnce.shared
      (ReleaseOnce.after (.completed "v" "n") (.cancelled "v")) :=
  (releasedOnce_iff (by decide) (by decide) rfl rfl rfl (by decide)
    (ReleaseOnce.served (by decide +kernel) (by decide +kernel))).mpr
    ⟨.inl (by decide), .inl (by decide)⟩

/-- **A repeated report releases twice.**  The node shows two available GPUs, one of which is
held by the other job. -/
theorem report_releases_twice :
    ReleaseOnce.shared.Accounted ∧
      Served [.completed "v" "n", .completed "v" "n"] ReleaseOnce.shared
        (ReleaseOnce.after (.completed "v" "n") (.completed "v" "n")) ∧
      ¬ ReleasedOnce (Small.job "v" .running 1 1 "n" 0) ReleaseOnce.shared
        (ReleaseOnce.after (.completed "v" "n") (.completed "v" "n")) := by
  refine ⟨by decide, ReleaseOnce.served (by decide +kernel) (by decide +kernel), fun h ↦ ?_⟩
  have hgpu := congrArg (Option.map fun a : Resource → Int ↦ a .gpu) h.node
  revert hgpu
  decide +kernel

end GpuScheduler
