import GpuScheduler.Accounting.Load
import GpuScheduler.Concurrent.Operations
import GpuScheduler.Scheduler.Rules
import Mathlib.Data.List.Nodup

/-!
# Lost updates of a node's availability

`UpdateAvailability` writes absolute values.  A scheduling pass writes what it makes of the copy
it read at its start, and the operations that end a job write what they make of the copy they read
just before; nothing stops a write that is based on an old copy.  So a pass may undo the release
of a job that ended meanwhile (`tick_loses_release`).

The books are right at the end of a pass and of any number of endings that overlap with it when
every such write hits the version of the row that its writer saw last (`accounted_of_current`).
`Versions` keeps count of that: it is a history variable, which no operation can see.

The proof is by rely and guarantee.  While an operation is between its two writes, a job's row and
its node's availability do not agree; a second history variable marks the jobs *in transit*, and
the invariant is that availability is capacity minus the usage of the jobs that are not.  Every
job belongs to one thread, its `owner`: the thread of its ending if it has one, and the pass
otherwise.
-/

namespace GpuScheduler

open Lib Models Scheduler

/-! ## The operations -/

/-- A pass and endings, none of which has begun. -/
def passAndEndings (e : Engine) (clock : Clock) (ends : List Ending) :
    List (Operation × Prog Call Call.Ret Mem Unit) :=
  (Operation.tick e clock :: ends.map Ending.operation).map fun op ↦ (op, op.thread)

/-- Nothing else happens. -/
def NothingElse (_ : Operation) (_ : Prog Call Call.Ret Mem Unit) : Prop := False

/-! ## Versions -/

/-- How often the availability of each node row was written, and which of these versions each
thread has seen last. -/
structure Versions where
  writes : String → Nat
  seen : Nat → String → Nat

namespace Versions

/-- Nothing is written yet. -/
def initial : Versions := ⟨fun _ ↦ 0, fun _ _ ↦ 0⟩

/-- Thread `i` issues a call: it sees the rows it reads and the rows it writes. -/
def after (v : Versions) (i : Nat) : Call → Versions
  | .nodesList => { v with seen := Function.update v.seen i v.writes }
  | .nodesGet id =>
      { v with seen := Function.update v.seen i (Function.update (v.seen i) id (v.writes id)) }
  | .nodesUpdateAvailability id _ _ _ =>
      { writes := Function.update v.writes id (v.writes id + 1)
        seen := Function.update v.seen i (Function.update (v.seen i) id (v.writes id + 1)) }
  | _ => v

/-- A write is in time when its thread has seen the current version of the row. -/
def Current (v : Versions) (i : Nat) : Call → Prop
  | .nodesUpdateAvailability id _ _ _ => v.seen i id = v.writes id
  | _ => True

instance (v : Versions) (i : Nat) : ∀ c, Decidable (v.Current i c)
  | .nodesUpdateAvailability id _ _ _ => inferInstanceAs (Decidable (v.seen i id = v.writes id))
  | .jobsCreate _ | .jobsGet _ | .jobsListByStatuses _ | .jobsListScheduledForNode _
  | .jobsUpdateStatus _ _ | .jobsSchedule _ _ | .jobsRequeue _ _ | .jobsTeamGPUUsage
  | .nodesUpsert _ | .nodesGet _ | .nodesList | .nodesHeartbeat _ | .nodesSetStatus _ _
  | .nodesMarkStaleDown _ | .eventsRecord _ => .isTrue trivial

/-- A thread sees nothing for another. -/
theorem seen_after_of_ne (v : Versions) {i j : Nat} (h : j ≠ i) (c : Call) :
    (v.after i c).seen j = v.seen j := by
  cases c with
  | nodesList | nodesGet _ | nodesUpdateAvailability _ _ _ _ => exact Function.update_of_ne h _ _
  | _ => rfl

/-- Versions go up. -/
theorem writes_le_after (v : Versions) (i : Nat) (c : Call) (id : String) :
    v.writes id ≤ (v.after i c).writes id := by
  cases c with
  | nodesUpdateAvailability id' _ _ _ =>
      by_cases h : id = id'
      · subst h
        simp [after]
      · simp [after, Function.update_of_ne h]
  | _ => exact le_rfl

end Versions

/-- Calls are executed on the store, and the versions are kept count of. -/
def onVersions : Pool.Handler Operation Call Call.Ret (Store × Versions) Env :=
  Pool.withAux onStore fun i _ c _ _ v ↦ v.after i c

/-- Every write of an availability is in time. -/
def QuietCurrent : Pool.Policy Operation Call Mem (Store × Versions) Env :=
  fun i op m c env s ↦ Quiet i op m c env s.1 ∧ s.2.Current i c

instance : ∀ i op m c env s, Decidable (QuietCurrent i op m c env s) := fun i op m c env s ↦
  inferInstanceAs (Decidable (Quiet i op m c env s.1 ∧ s.2.Current i c))

namespace LostUpdate

/-! ## Jobs in transit -/

/-- The thread that a job belongs to. -/
def owner (ends : List Ending) (id : String) : Nat :=
  if id ∈ ends.map Ending.jobID then (ends.map Ending.jobID).idxOf id + 1 else 0

theorem owner_le (ends : List Ending) (id : String) : owner ends id ≤ ends.length := by
  rw [owner]
  split
  · rename_i h
    have := List.idxOf_lt_length_iff.mpr h
    rw [List.length_map] at this
    omega
  · exact Nat.zero_le _

/-- An ending owns one job only. -/
theorem owner_inj {ends : List Ending} {id id' : String} (h : owner ends id = owner ends id')
    (hne : owner ends id ≠ 0) : id = id' := by
  have hmem : ∀ {id}, owner ends id ≠ 0 → id ∈ ends.map Ending.jobID := fun h ↦ by
    by_contra hn
    exact h (if_neg hn)
  have h₁ := hmem hne
  have h₂ := hmem (h ▸ hne)
  rw [owner, owner, if_pos h₁, if_pos h₂, Nat.add_right_cancel_iff] at h
  exact (List.idxOf_inj h₁).mp h

theorem owner_of_getElem? {ends : List Ending} (hnd : (ends.map Ending.jobID).Nodup) {k : Nat}
    {x : Ending} (h : ends[k]? = some x) : owner ends x.jobID = k + 1 := by
  have hk : (ends.map Ending.jobID)[k]? = some x.jobID := by rw [List.getElem?_map, h]; rfl
  obtain ⟨hlt, heq⟩ := List.getElem?_eq_some_iff.mp hk
  rw [owner, if_pos (List.mem_of_getElem? hk), ← heq, hnd.idxOf_getElem]

/-- The store, the versions, and which jobs are in transit. -/
abbrev Tracked : Type := (Store × Versions) × (String → Bool)

section Outline

variable (own : String → Nat)

/-- A placement is in transit from `Schedule` on until its availability is written, and a release
from its availability on until the job's status is written. -/
def transit (i : Nat) (tr : String → Bool) : Call → String → Bool
  | .jobsSchedule id _ => Function.update tr id true
  | .jobsUpdateStatus id _ => Function.update tr id false
  | .nodesUpdateAvailability _ _ _ _ => fun id ↦ if own id = i then decide (i ≠ 0) else tr id
  | _ => tr

/-- What a job takes of a node, unless it is in transit. -/
def settled (tr : String → Bool) (id : String) (d : Resource) (j : Job) : Int :=
  if tr j.jobID then 0 else j.usage id d

theorem settled_of_transit {tr : String → Bool} {j : Job} (h : tr j.jobID = true) (id : String)
    (d : Resource) : settled tr id d j = 0 := if_pos h

theorem settled_of_not_transit {tr : String → Bool} {j : Job} (h : tr j.jobID = false)
    (id : String) (d : Resource) : settled tr id d j = j.usage id d := by
  rw [settled, h]
  rfl

/-- The invariant: the books are right for the jobs that are not in transit. -/
structure Inv (x : Tracked) : Prop where
  books : ∀ n ∈ x.1.1.nodes.rows, ∀ d,
    n.avail d = n.cap d - x.1.1.jobs.sum (settled x.2 n.nodeID d)
  requests : x.1.1.NonnegRequests
  named : ∀ n ∈ x.1.1.nodes.rows, n.nodeID ≠ ""
  owned : ∀ j ∈ x.1.1.jobs.rows, own j.jobID ≠ 0 → j.status ≠ .queued

/-- What belongs to the threads in `A` is as before, and no availability changes without a new
version. -/
structure Frame (A : Nat → Prop) (x y : Tracked) : Prop where
  seen : ∀ i, A i → y.1.2.seen i = x.1.2.seen i
  jobs : ∀ id, A (own id) → y.1.1.jobs.find? id = x.1.1.jobs.find? id ∧ y.2 id = x.2 id
  writes : ∀ id, x.1.2.writes id ≤ y.1.2.writes id
  missing : ∀ id, x.1.1.nodes.find? id = none → y.1.1.nodes.find? id = none
  nodes : ∀ id r, x.1.1.nodes.find? id = some r → ∃ r', y.1.1.nodes.find? id = some r' ∧
    r'.cap = r.cap ∧ (y.1.2.writes id = x.1.2.writes id → r'.avail = r.avail)

variable {own}

theorem Frame.trans {A : Nat → Prop} {x y z : Tracked} (h : Frame own A x y)
    (h' : Frame own A y z) : Frame own A x z where
  seen i hi := (h'.seen i hi).trans (h.seen i hi)
  jobs id hid := ⟨(h'.jobs id hid).1.trans (h.jobs id hid).1,
    (h'.jobs id hid).2.trans (h.jobs id hid).2⟩
  writes id := (h.writes id).trans (h'.writes id)
  missing id hid := h'.missing id (h.missing id hid)
  nodes id r hr := by
    obtain ⟨r₁, hr₁, hc₁, ha₁⟩ := h.nodes id r hr
    obtain ⟨r₂, hr₂, hc₂, ha₂⟩ := h'.nodes id r₁ hr₁
    refine ⟨r₂, hr₂, hc₂.trans hc₁, fun hw ↦ ?_⟩
    have hle := h.writes id
    have hle' := h'.writes id
    exact (ha₂ (by omega)).trans (ha₁ (by omega))

theorem Frame.mono {A B : Nat → Prop} {x y : Tracked} (h : Frame own A x y)
    (hB : ∀ i, B i → A i) : Frame own B x y :=
  ⟨fun i hi ↦ h.seen i (hB i hi), fun id hid ↦ h.jobs id (hB _ hid), h.writes, h.missing, h.nodes⟩

/-- A call that leaves the node rows alone. -/
theorem Frame.of_nodes {A : Nat → Prop} {x y : Tracked}
    (hseen : ∀ i, A i → y.1.2.seen i = x.1.2.seen i)
    (hjobs : ∀ id, A (own id) → y.1.1.jobs.find? id = x.1.1.jobs.find? id ∧ y.2 id = x.2 id)
    (hwrites : ∀ id, x.1.2.writes id ≤ y.1.2.writes id)
    (hnodes : y.1.1.nodes = x.1.1.nodes) : Frame own A x y where
  seen := hseen
  jobs := hjobs
  writes := hwrites
  missing id hid := by rw [hnodes, hid]
  nodes id r hr := ⟨r, by rw [hnodes, hr], rfl, fun _ ↦ rfl⟩

variable (own)

/-- The setting of thread `i`: the others leave alone what belongs to it, and it leaves alone what
belongs to the others. -/
def logic (i : Nat) (op : Operation) : Logic Call Call.Ret Mem Tracked Env where
  exec := Pool.withAux onVersions (fun i _ c _ _ tr ↦ transit own i tr c) i op
  admits m c env x := QuietCurrent i op m c env x.1
  inv := Inv own
  rely := Frame own (· = i)
  guar := Frame own (· ≠ i)
  held _ _ := True
  rely_refl _ := .of_nodes (fun _ _ ↦ rfl) (fun _ _ ↦ ⟨rfl, rfl⟩) (fun _ ↦ le_rfl) rfl
  rely_trans := .trans

/-- The state after a call. -/
def after (i : Nat) (c : Call) (now : Time) (x : Tracked) : Tracked :=
  (((x.1.1.perform now c).2, x.1.2.after i c), transit own i x.2 c)

variable {own} {i : Nat} {op : Operation} {m : Mem} {x : Tracked}

/-- The rule for a call: it succeeds, and a write is in time. -/
theorem wp_issue {c : Call} {Q : c.Ret → Mem → Tracked → Prop}
    (h : ∀ y, Frame own (· = i) x y → Inv own y → ∀ now, NoStale m c ⟨false, now⟩ y.1.1 →
      y.1.2.Current i c → Inv own (after own i c now y) ∧
        Frame own (· ≠ i) y (after own i c now y) ∧
        ∀ z, Frame own (· = i) (after own i c now y) z → Inv own z →
          Q (y.1.1.perform now c).1 m z) :
    (issue c).wp (logic own i op) Q m x := by
  refine Act.wp_call fun y hxy hy ↦ ⟨trivial, fun env henv ↦ ?_⟩
  obtain ⟨⟨hok, hstale⟩, hcur⟩ := henv
  obtain ⟨fails, now⟩ := env
  simp only [NoError] at hok
  subst hok
  exact h y hxy hy now hstale hcur

/-- A call that writes neither a row nor a version. -/
theorem wp_read {c : Call} {Q : c.Ret → Mem → Tracked → Prop} (htr : ∀ tr, transit own i tr c = tr)
    (hs : ∀ s now, NoStale m c ⟨false, now⟩ s →
      (s.perform now c).2.jobs = s.jobs ∧ (s.perform now c).2.nodes = s.nodes)
    (h : ∀ y, Frame own (· = i) x y → Inv own y → ∀ now, NoStale m c ⟨false, now⟩ y.1.1 →
      ∀ z, Frame own (· = i) (after own i c now y) z → Inv own z →
        Q (y.1.1.perform now c).1 m z) :
    (issue c).wp (logic own i op) Q m x := by
  refine wp_issue fun y hxy hy now hstale _ ↦ ?_
  obtain ⟨hjobs, hnodes⟩ := hs y.1.1 now hstale
  refine ⟨⟨?_, ?_, ?_, ?_⟩, ?_, h y hxy hy now hstale⟩
  · simp only [after, htr, hjobs, hnodes]
    exact hy.books
  · intro j hj
    simp only [after, hjobs] at hj
    exact hy.requests j hj
  · simp only [after, hnodes]
    exact hy.named
  · simp only [after, hjobs]
    exact hy.owned
  · refine .of_nodes (fun j hj ↦ y.1.2.seen_after_of_ne hj c) (fun id _ ↦ ?_)
      (y.1.2.writes_le_after i c) hnodes
    simp only [after, htr, hjobs, and_self]

/-- A call that the versions do not record either. -/
theorem wp_look {c : Call} {Q : c.Ret → Mem → Tracked → Prop} (htr : ∀ tr, transit own i tr c = tr)
    (hver : ∀ v : Versions, v.after i c = v)
    (hs : ∀ s now, NoStale m c ⟨false, now⟩ s →
      (s.perform now c).2.jobs = s.jobs ∧ (s.perform now c).2.nodes = s.nodes)
    (h : ∀ y, Frame own (· = i) x y → Inv own y → ∀ now, NoStale m c ⟨false, now⟩ y.1.1 →
      ∀ z, Frame own (· = i) y z → Inv own z → Q (y.1.1.perform now c).1 m z) :
    (issue c).wp (logic own i op) Q m x := by
  refine wp_read htr hs fun y hxy hy now hstale z hz hzi ↦
    h y hxy hy now hstale z (Frame.trans ?_ hz) hzi
  obtain ⟨hjobs, hnodes⟩ := hs y.1.1 now hstale
  refine .of_nodes (fun j _ ↦ by simp only [after, hver]) (fun id _ ↦ ?_) (fun id ↦ ?_) hnodes
  · simp only [after, htr, hjobs, and_self]
  · simp only [after, hver, le_refl]

/-! ## Copies of node rows -/

/-- A copy of a node row that thread `i` holds: unless the row was written since the thread saw it
last, the copy shows what is available. -/
def Fresh (i : Nat) (n : Node) (x : Tracked) : Prop :=
  ∃ r, x.1.1.nodes.find? n.nodeID = some r ∧ r.cap = n.cap ∧
    x.1.2.seen i n.nodeID ≤ x.1.2.writes n.nodeID ∧
    (x.1.2.seen i n.nodeID = x.1.2.writes n.nodeID → r.avail = n.avail)

theorem Fresh.rely {n : Node} {y : Tracked} (h : Fresh i n x) (hxy : Frame own (· = i) x y) :
    Fresh i n y := by
  obtain ⟨r, hr, hc, hle, ha⟩ := h
  obtain ⟨r', hr', hc', ha'⟩ := hxy.nodes n.nodeID r hr
  have hseen : y.1.2.seen i n.nodeID = x.1.2.seen i n.nodeID := by rw [hxy.seen i rfl]
  have hw := hxy.writes n.nodeID
  refine ⟨r', hr', hc'.trans hc, by omega, fun heq ↦ ?_⟩
  exact (ha' (by omega)).trans (ha (by omega))

/-- A copy is fresh when it was just read. -/
theorem Fresh.of_find? {n : Node} (h : x.1.1.nodes.find? n.nodeID = some n)
    (hseen : x.1.2.seen i n.nodeID = x.1.2.writes n.nodeID) : Fresh i n x :=
  ⟨n, h, rfl, hseen.le, fun _ ↦ rfl⟩

section Write

variable {y : Tracked} {n r : Node} {now : Time}

/-- Writing the availabilities of a copy. -/
abbrev write (n : Node) : Call :=
  .nodesUpdateAvailability n.nodeID n.gpuAvailable n.cpuAvailable n.memoryAvailable

theorem find?_write_self (hr : y.1.1.nodes.find? n.nodeID = some r) :
    (after own i (write n) now y).1.1.nodes.find? n.nodeID =
      some (r.setAvailable n.gpuAvailable n.cpuAvailable n.memoryAvailable) := by
  change (y.1.1.writeBack n).nodes.find? n.nodeID = _
  rw [Store.nodes_writeBack, Table.find?_modify_self, hr, Option.map_some]

theorem find?_write_of_ne {id : String} (h : id ≠ n.nodeID) :
    (after own i (write n) now y).1.1.nodes.find? id = y.1.1.nodes.find? id :=
  Store.find?_writeBack_of_ne h

/-- A write leaves the other threads' belongings alone and makes a new version. -/
theorem frame_write : Frame own (· ≠ i) y (after own i (write n) now y) where
  seen j hj := y.1.2.seen_after_of_ne hj (write n)
  jobs id hid := ⟨rfl, if_neg hid⟩
  writes := y.1.2.writes_le_after i (write n)
  missing id hid := by
    by_cases h : id = n.nodeID
    · subst h
      change (y.1.1.writeBack n).nodes.find? n.nodeID = none
      rw [Store.nodes_writeBack, Table.find?_modify_self, hid, Option.map_none]
    · rw [find?_write_of_ne h, hid]
  nodes id r hr := by
    by_cases h : id = n.nodeID
    · subst h
      refine ⟨_, find?_write_self hr, Node.cap_setAvailable _ _ _ _, fun hw ↦ ?_⟩
      simp [after, Versions.after] at hw
    · exact ⟨r, by rw [find?_write_of_ne h, hr], rfl, fun _ ↦ rfl⟩

/-- The copy that was written is fresh. -/
theorem Fresh.write_self (hr : y.1.1.nodes.find? n.nodeID = some r) (hc : r.cap = n.cap) :
    Fresh i n (after own i (write n) now y) := by
  have hseen : (after own i (write n) now y).1.2.seen i n.nodeID =
      (after own i (write n) now y).1.2.writes n.nodeID := by
    simp [after, Versions.after]
  refine ⟨_, find?_write_self hr, ?_, hseen.le, fun _ ↦ ?_⟩
  · rw [Node.cap_setAvailable, hc]
  · funext d
    exact Node.avail_setAvailable r n d

/-- The copies of other rows are as fresh as before. -/
theorem Fresh.write_of_ne {n' : Node} (h : Fresh i n' y) (hne : n'.nodeID ≠ n.nodeID) :
    Fresh i n' (after own i (write n) now y) := by
  obtain ⟨r, hr, hc, hle, ha⟩ := h
  have hseen : (after own i (write n) now y).1.2.seen i n'.nodeID = y.1.2.seen i n'.nodeID := by
    simp [after, Versions.after, Function.update_of_ne hne]
  have hw : (after own i (write n) now y).1.2.writes n'.nodeID = y.1.2.writes n'.nodeID := by
    simp [after, Versions.after, Function.update_of_ne hne]
  refine ⟨r, by rw [find?_write_of_ne hne, hr], hc, ?_, ?_⟩
  · rw [hseen, hw]
    exact hle
  · rw [hseen, hw]
    exact ha

end Write

/-! ## The writes -/

/-- When a single job goes in or out of transit, the sum changes by what it takes. -/
theorem sum_settled {s : Store} {tr tr' : String → Bool} {j : Job}
    (hj : s.jobs.find? j.jobID = some j) (htr : ∀ id, id ≠ j.jobID → tr' id = tr id) (id : String)
    (d : Resource) : s.jobs.sum (settled tr' id d) =
      s.jobs.sum (settled tr id d) - settled tr id d j + settled tr' id d j :=
  Table.sum_eq_add hj fun x _ hne ↦ by rw [settled, settled, htr _ hne]

/-- A write in time that takes one job in or out of transit, on the node that the job is on. -/
theorem Inv.write {y : Tracked} (h : Inv own y) {n r : Node} {j : Job} {now : Time}
    (hr : y.1.1.nodes.find? n.nodeID = some r) (hj : y.1.1.jobs.find? j.jobID = some j)
    (hon : j.nodeID = n.nodeID)
    (htr : ∀ id, id ≠ j.jobID → transit own i y.2 (write n) id = y.2 id)
    (havail : ∀ d, n.avail d = r.avail d + settled y.2 n.nodeID d j -
      settled (transit own i y.2 (write n)) n.nodeID d j) :
    Inv own (after own i (write n) now y) where
  books x hx d := by
    have hsum := sum_settled hj htr
    rcases Store.mem_writeBack (s := y.1.1) (n := n) hx with ⟨hx, hne⟩ | ⟨r', hr', hid, rfl⟩
    · have hu : ∀ tr, settled tr x.nodeID d j = 0 := fun tr ↦ by
        rw [settled, Job.usage_of_ne (hon.trans_ne (Ne.symm hne)), ite_self]
      change _ = _ - y.1.1.jobs.sum (settled (transit own i y.2 (LostUpdate.write n)) x.nodeID d)
      rw [hsum, hu, hu, h.books x hx d]
      omega
    · obtain rfl : r' = r := by
        have := Table.find?_key hr'
        rw [hid, hr, Option.some.injEq] at this
        exact this.symm
      change _ = _ - y.1.1.jobs.sum (settled (transit own i y.2 (LostUpdate.write n)) r'.nodeID d)
      have hb := h.books r' hr' d
      rw [Node.avail_setAvailable, Node.cap_setAvailable, hsum, havail d, hid]
      rw [hid] at hb
      omega
  requests := h.requests
  named x hx := by
    rcases Store.mem_writeBack (s := y.1.1) (n := n) hx with ⟨hx, -⟩ | ⟨r', hr', -, rfl⟩
    · exact h.named x hx
    · exact h.named r' hr'
  owned := h.owned

section Jobs

variable {y : Tracked} {job : Job} {now : Time}

/-- A queued job is scheduled, and in transit until its node's availability is written. -/
theorem Inv.schedule (h : Inv own y) (hj : y.1.1.jobs.find? job.jobID = some job)
    (hq : job.status = .queued) (nodeID : String) :
    Inv own (after own i (.jobsSchedule job.jobID nodeID) now y) where
  books n hn d := by
    rw [h.books n hn d]
    change _ = _ - (y.1.1.schedule job.jobID nodeID).jobs.sum
      (settled (Function.update y.2 job.jobID true) n.nodeID d)
    rw [Store.jobs_schedule, Table.sum_modify_congr _ _ _ _ (fun r hr hk ↦ ?_) fun r hr hk ↦ ?_]
    · obtain rfl : r = job := y.1.1.jobs.eq_of_key_eq hr (Table.mem_of_find? hj) hk
      rw [settled_of_transit (by simp [Job.jobID_scheduledOn]), settled,
        Job.usage_of_not_active (by rw [hq]; rfl), ite_self]
    · rw [settled, settled, Function.update_of_ne hk]
  requests := h.requests.schedule nodeID
  named := h.named
  owned j hj hne := by
    change j ∈ (y.1.1.schedule job.jobID nodeID).jobs.rows at hj
    rw [Store.jobs_schedule] at hj
    rcases Table.mem_modify.mp hj with ⟨r, -, -, rfl⟩ | ⟨hj, -⟩
    · exact fun hst ↦ by cases hst
    · exact h.owned j hj hne

/-- A job that takes nothing more of any node is over. -/
theorem Inv.finish (h : Inv own y) (hj : y.1.1.jobs.find? job.jobID = some job)
    (hgone : y.2 job.jobID = true ∨ y.1.1.nodes.find? job.nodeID = none) {st : JobStatus}
    (hst : st.isTerminal = true) :
    Inv own (after own i (.jobsUpdateStatus job.jobID st) now y) where
  books n hn d := by
    rw [h.books n hn d]
    change _ = _ - (y.1.1.updateStatus job.jobID st now).jobs.sum
      (settled (Function.update y.2 job.jobID false) n.nodeID d)
    rw [Store.jobs_updateStatus, Table.sum_modify_congr _ _ _ _ (fun r hr hk ↦ ?_) fun r hr hk ↦ ?_]
    · obtain rfl : r = job := y.1.1.jobs.eq_of_key_eq hr (Table.mem_of_find? hj) hk
      have hend :
          settled (Function.update y.2 r.jobID false) n.nodeID d (r.withStatus st now) = 0 := by
        rw [settled, Job.usage_withStatus_of_not_active _ (JobStatus.isActive_of_isTerminal hst),
          ite_self]
      rw [hend]
      rcases hgone with htr | hnone
      · exact (settled_of_transit htr _ _).symm
      · have hne : r.nodeID ≠ n.nodeID := fun heq ↦
          Table.find?_eq_none.mp hnone n hn heq.symm
        rw [settled, Job.usage_of_ne hne, ite_self]
    · rw [settled, settled, Function.update_of_ne hk]
  requests := h.requests.updateStatus st now
  named := h.named
  owned j hj hne := by
    change j ∈ (y.1.1.updateStatus job.jobID st now).jobs.rows at hj
    rw [Store.jobs_updateStatus] at hj
    rcases Table.mem_modify.mp hj with ⟨r, -, -, rfl⟩ | ⟨hj, -⟩
    · rintro rfl
      cases hst
    · exact h.owned j hj hne

/-- Both leave the other threads' jobs alone. -/
theorem frame_schedule (nodeID : String) (hown : own job.jobID = i) :
    Frame own (· ≠ i) y (after own i (.jobsSchedule job.jobID nodeID) now y) := by
  refine .of_nodes (fun _ _ ↦ rfl) (fun id hid ↦ ?_) (fun _ ↦ le_rfl) rfl
  have hne : id ≠ job.jobID := fun heq ↦ hid (heq ▸ hown)
  refine ⟨?_, Function.update_of_ne hne _ _⟩
  change (y.1.1.schedule job.jobID nodeID).jobs.find? id = _
  rw [Store.jobs_schedule, Table.find?_modify_of_ne _ hne]

theorem frame_finish (st : JobStatus) (hown : own job.jobID = i) :
    Frame own (· ≠ i) y (after own i (.jobsUpdateStatus job.jobID st) now y) := by
  refine .of_nodes (fun _ _ ↦ rfl) (fun id hid ↦ ?_) (fun _ ↦ le_rfl) rfl
  have hne : id ≠ job.jobID := fun heq ↦ hid (heq ▸ hown)
  refine ⟨?_, Function.update_of_ne hne _ _⟩
  change (y.1.1.updateStatus job.jobID st now).jobs.find? id = _
  rw [Store.jobs_updateStatus, Table.find?_modify_of_ne _ hne]

end Jobs

/-! ## The pass -/

/-- What a pass knows when the jobs `queue` are still to be attempted. -/
structure PassAt (own : String → Nat) (queue : List Job) (m : Mem) (x : Tracked) : Prop where
  nodes : ∀ n ∈ m.nodes, Fresh 0 n x
  queued : ∀ j ∈ queue, x.1.1.jobs.find? j.jobID = some j ∧ j.status = .queued ∧ own j.jobID = 0
  nodup : (queue.map Job.jobID).Nodup
  landed : ∀ id, own id = 0 → x.2 id = false

/-- What it knows between the two writes of a placement: the copy of the node as it was before the
reservation agrees with the row. -/
structure Placing (own : String → Nat) (job : Job) (node : Node) (queue : List Job) (m : Mem)
    (x : Tracked) : Prop where
  nodes : ∀ n ∈ m.nodes, n.nodeID ≠ node.nodeID → Fresh 0 n x
  copy : Fresh 0 node x
  placed : x.1.1.jobs.find? job.jobID = some (job.scheduledOn node.nodeID)
  mine : own job.jobID = 0
  queued : ∀ j ∈ queue, x.1.1.jobs.find? j.jobID = some j ∧ j.status = .queued ∧ own j.jobID = 0
  nodup : (queue.map Job.jobID).Nodup
  transit : ∀ id, own id = 0 → x.2 id = decide (id = job.jobID)

section Pass

variable {e : Engine} {job : Job} {queue : List Job} {node : Node} {y : Tracked}

theorem PassAt.rely (h : PassAt own queue m x) (hxy : Frame own (· = 0) x y) :
    PassAt own queue m y where
  nodes n hn := (h.nodes n hn).rely hxy
  queued j hj := by
    obtain ⟨hrow, hq, hown⟩ := h.queued j hj
    exact ⟨(hxy.jobs _ hown).1.trans hrow, hq, hown⟩
  nodup := h.nodup
  landed id hid := (hxy.jobs id hid).2.trans (h.landed id hid)

theorem Placing.rely (h : Placing own job node queue m x) (hxy : Frame own (· = 0) x y) :
    Placing own job node queue m y where
  nodes n hn hne := (h.nodes n hn hne).rely hxy
  copy := h.copy.rely hxy
  placed := (hxy.jobs _ h.mine).1.trans h.placed
  mine := h.mine
  queued j hj := by
    obtain ⟨hrow, hq, hown⟩ := h.queued j hj
    exact ⟨(hxy.jobs _ hown).1.trans hrow, hq, hown⟩
  nodup := h.nodup
  transit id hid := (hxy.jobs id hid).2.trans (h.transit id hid)

/-- The first write of a placement. -/
theorem PassAt.schedule (h : PassAt own (job :: queue) m y) (hn : node ∈ m.nodes) {now : Time} :
    Placing own job node queue (m.commit job node)
      (after own 0 (.jobsSchedule job.jobID node.nodeID) now y) := by
  obtain ⟨hrow, -, hown⟩ := h.queued job List.mem_cons_self
  obtain ⟨hnot, hnd⟩ := List.nodup_cons.mp h.nodup
  have hfind : ∀ id, (after own 0 (.jobsSchedule job.jobID node.nodeID) now y).1.1.jobs.find? id =
      (y.1.1.schedule job.jobID node.nodeID).jobs.find? id := fun _ ↦ rfl
  refine ⟨fun n hn' hne ↦ ?_, h.nodes node hn, ?_, hown, fun j hj ↦ ?_, hnd, fun id hid ↦ ?_⟩
  · rcases Mem.mem_nodes_putNode hn' with rfl | ⟨hn', -⟩
    · exact absurd rfl hne
    · exact h.nodes n hn'
  · rw [hfind, Store.jobs_schedule, Table.find?_modify_self, hrow, Option.map_some]
  · obtain ⟨hjrow, hq, hjown⟩ := h.queued j (List.mem_cons_of_mem job hj)
    have hne : j.jobID ≠ job.jobID := fun heq ↦ hnot (heq ▸ List.mem_map_of_mem hj)
    refine ⟨?_, hq, hjown⟩
    rw [hfind, Store.jobs_schedule, Table.find?_modify_of_ne _ hne, hjrow]
  · change Function.update y.2 job.jobID true id = _
    by_cases heq : id = job.jobID
    · rw [heq, Function.update_self, decide_eq_true rfl]
    · rw [Function.update_of_ne heq, h.landed id hid, decide_eq_false heq]

/-- The second write of a placement. -/
theorem Placing.write (h : Placing own job node queue (m.commit job node) y) (hy : Inv own y)
    (hcur : y.1.2.Current 0 (write (node.reserve job.resourceRequest))) (now : Time) :
    Inv own (after own 0 (write (node.reserve job.resourceRequest)) now y) ∧
      PassAt own queue (m.commit job node)
        (after own 0 (write (node.reserve job.resourceRequest)) now y) := by
  obtain ⟨r, hr, hcap, -, havail⟩ := h.copy
  have havail : r.avail = node.avail := havail hcur
  have hjob : y.2 job.jobID = true := by rw [h.transit _ h.mine, decide_eq_true rfl]
  have htr : ∀ id, LostUpdate.transit own 0 y.2 (LostUpdate.write (node.reserve
      job.resourceRequest)) id = if own id = 0 then false else y.2 id := fun _ ↦ rfl
  constructor
  · refine Inv.write (j := job.scheduledOn node.nodeID) hy hr h.placed rfl (fun id hne ↦ ?_)
      fun d ↦ ?_
    · rw [htr]
      split
      · rename_i hid
        rw [h.transit id hid]
        exact (decide_eq_false hne).symm
      · rfl
    · have hjob : y.2 (job.scheduledOn node.nodeID).jobID = true := hjob
      rw [settled_of_transit hjob, settled_of_not_transit (by rw [htr]; exact if_pos h.mine),
        Node.nodeID_reserve, Job.usage_scheduledOn_self, Node.avail_reserve, havail, Job.request]
      omega
  · refine ⟨fun n hn ↦ ?_, h.queued, h.nodup, fun id hid ↦ ?_⟩
    · rcases Mem.mem_nodes_putNode hn with rfl | ⟨hn', hne⟩
      · exact Fresh.write_self hr (by rw [hcap, Node.cap_reserve])
      · exact (h.nodes n hn hne).write_of_ne hne
    · exact (htr id).trans (if_pos hid)

theorem wp_recordEvent {nodeID reason : String} {ok : Bool} (h : PassAt own queue m x) :
    (e.recordEvent job nodeID reason ok).wp (logic own 0 op)
      (fun _ m x ↦ PassAt own queue m x) m x := by
  refine Act.wp_bind.mpr (wp_look (fun _ ↦ rfl) (fun _ ↦ rfl) (fun _ _ _ ↦ ⟨rfl, rfl⟩)
    fun y hxy _ _ _ z hyz _ ↦ ?_)
  exact Act.wp_pure.mpr fun u hzu _ ↦ ((h.rely hxy).rely hyz).rely hzu

theorem wp_commitPlacement {reason : String} (h : PassAt own (job :: queue) m x)
    (hn : node ∈ m.nodes) :
    (e.commitPlacement job node reason).wp (logic own 0 op)
      (fun _ m x ↦ PassAt own queue m x) m x := by
  refine Act.wp_bind.mpr (Act.wp_modify.mpr fun x₁ h₁ _ ↦ ?_)
  refine Act.wp_bind.mpr (Act.wp_modify.mpr fun x₂ h₂ _ ↦ ?_)
  have h := (h.rely h₁).rely h₂
  refine Act.wp_bind.mpr (wp_issue fun y hxy hy now _ _ ↦ ?_)
  have h := h.rely hxy
  obtain ⟨hrow, hq, hown⟩ := h.queued job List.mem_cons_self
  refine ⟨hy.schedule hrow hq _, frame_schedule _ hown, fun z hyz _ ↦ ?_⟩
  have hplacing := (h.schedule hn).rely hyz
  refine Act.wp_bind.mpr (wp_issue fun u hzu hu now _ hcur ↦ ?_)
  obtain ⟨hinv, hat⟩ := (hplacing.rely hzu).write hu hcur now
  exact ⟨hinv, frame_write, fun w huw _ ↦ wp_recordEvent (hat.rely huw)⟩

theorem wp_placeOne (hp : e.cfg.enablePreemption = false) {now : Time}
    (h : PassAt own (job :: queue) m x) :
    (e.placeOne now job).wp (logic own 0 op) (fun _ m x ↦ PassAt own queue m x) m x := by
  refine Engine.wp_placeOne (I := PassAt own (job :: queue)) (fun _ _ _ h hst _ ↦ h.rely hst)
    ?_ ?_ ?_ h
  · exact fun node why reason m x h hplace ↦ wp_commitPlacement h (Algorithm.place_ok hplace).1
  · intro hp'
    rw [hp] at hp'
    cases hp'
  · intro reason m x h
    exact wp_recordEvent ⟨h.nodes, fun j hj ↦ h.queued j (List.mem_cons_of_mem job hj),
      (List.nodup_cons.mp h.nodup).2, h.landed⟩

/-- The nodes that the pass has just listed. -/
theorem fresh_listNodes {now : Time} {n : Node} (hn : n ∈ y.1.1.listNodes) :
    Fresh 0 n (after own 0 .nodesList now y) := by
  refine Fresh.of_find? (Table.find?_key (mem_sliceStable.mp hn)) ?_
  change Function.update y.1.2.seen 0 y.1.2.writes 0 n.nodeID = _
  rw [Function.update_self]
  rfl

/-- The queue that the pass has just listed. -/
theorem PassAt.listed (h : PassAt own [] m y) (hy : Inv own y) :
    PassAt own (y.1.1.listByStatuses [.queued]) m y where
  nodes := h.nodes
  queued j hj := by
    obtain ⟨hrow, hq⟩ := List.mem_filter.mp (mem_sliceStable.mp hj)
    have hq : j.status = .queued := by simpa using hq
    exact ⟨Table.find?_key hrow, hq, by_contra fun hne ↦ hy.owned j hrow hne hq⟩
  nodup := y.1.1.nodup_listByStatuses _
  landed := h.landed

/-- The order of the queue is of no importance, and neither is what else the pass holds. -/
theorem PassAt.perm {queue' : List Job} {m' : Mem} (h : PassAt own queue m x)
    (hp : queue'.Perm queue) (hm : m'.nodes = m.nodes) : PassAt own queue' m' x where
  nodes n hn := h.nodes n (hm ▸ hn)
  queued j hj := h.queued j (hp.mem_iff.mp hj)
  nodup := (hp.map Job.jobID).nodup_iff.mpr h.nodup
  landed := h.landed

theorem wp_schedulePass (hp : e.cfg.enablePreemption = false) {clock : Clock}
    (h : ∀ id, own id = 0 → x.2 id = false) :
    (e.schedulePass clock).wp (logic own 0 op)
      (fun _ _ x ↦ ∀ id, own id = 0 → x.2 id = false) m x := by
  have hend : ∀ {r : Except StoreError Unit} {queue m x}, PassAt own queue m x →
      (pure r : StoreM _).wp (logic own 0 op) (fun _ _ x ↦ ∀ id, own id = 0 → x.2 id = false)
        m x := fun h ↦ Act.wp_pure.mpr fun y hxy _ ↦ (h.rely hxy).landed
  refine Act.wp_bind.mpr (wp_read (fun _ ↦ rfl) (fun _ _ _ ↦ ⟨rfl, rfl⟩)
    fun y hxy hy now _ z hz _ ↦ ?_)
  refine Act.wp_bind.mpr (Act.wp_modify.mpr fun x₁ h₁ _ ↦ ?_)
  have hat : PassAt own [] { m with nodes := y.1.1.listNodes } x₁ := by
    refine PassAt.rely (x := z) (PassAt.rely (x := after own 0 .nodesList now y) ?_ hz) h₁
    refine ⟨fun n hn ↦ fresh_listNodes hn, fun j hj ↦ absurd hj List.not_mem_nil,
      List.nodup_nil, fun id hid ↦ ?_⟩
    exact (hxy.jobs id hid).2.trans (h id hid)
  refine Act.wp_bind.mpr (wp_look (fun _ ↦ rfl) (fun _ ↦ rfl) (fun _ _ _ ↦ ⟨rfl, rfl⟩)
    fun y₁ h₁ hi₁ _ _ z₁ hz₁ _ ↦ ?_)
  have hat := ((hat.rely h₁).listed hi₁).rely hz₁
  refine Act.wp_bind.mpr (wp_look (fun _ ↦ rfl) (fun _ ↦ rfl) (fun _ _ _ ↦ ⟨rfl, rfl⟩)
    fun y₂ h₂ _ _ _ z₂ hz₂ _ ↦ ?_)
  have hat := (hat.rely h₂).rely hz₂
  simp only [Store.perform]
  split
  · exact hend hat
  · refine Act.wp_bind.mpr (Act.wp_bind.mpr (wp_look (fun _ ↦ rfl) (fun _ ↦ rfl)
      (fun _ _ _ ↦ ⟨rfl, rfl⟩) fun y₃ h₃ _ _ _ z₃ hz₃ _ ↦ ?_))
    have hat := (hat.rely h₃).rely hz₃
    refine Act.wp_pure.mpr fun x₄ h₄ _ ↦ ?_
    have hat := hat.rely h₄
    refine Act.wp_bind.mpr (Act.wp_modify.mpr fun x₅ h₅ _ ↦ Act.wp_bind.mpr ?_)
    have hat := hat.rely h₅
    -- the order in which the queue is attempted is a permutation of it
    have hperm := Algorithm.order_perm e.alg clock.ordering (y₁.1.1.listByStatuses [.queued])
      ⟨Engine.sharesOf y.1.1.listNodes y₃.1.1.teamGPUUsage, e.cfg.agingFactor⟩
    refine Act.wp.mono (Act.wp_forM (I := PassAt own) ?_ ?_ ?_) fun _ m t _ h ↦ hend h
    · exact hat.perm hperm rfl
    · exact fun _ _ _ h hst _ ↦ h.rely hst
    · exact fun job queue m x h ↦ wp_placeOne hp h

/-- The whole pass: without a stale node there is nothing to recover. -/
theorem wp_tick (hp : e.cfg.enablePreemption = false) {clock : Clock}
    (h : ∀ id, own id = 0 → x.2 id = false) :
    (e.tick clock).wp (logic own 0 op) (fun _ _ x ↦ ∀ id, own id = 0 → x.2 id = false) m x := by
  refine Act.wp_bind.mpr (Act.wp_bind.mpr (wp_look (fun _ ↦ rfl) (fun _ ↦ rfl) (fun s now hns ↦ ?_)
    fun y hxy _ now hns z hyz _ ↦ ?_))
  · have hs : (s.perform now (.nodesMarkStaleDown e.cfg.heartbeatTTL)).2 = s :=
      s.markStaleDown_of_noStale hns
    exact ⟨congrArg Store.jobs hs, congrArg Store.nodes hs⟩
  · have hnone : (y.1.1.perform now (.nodesMarkStaleDown e.cfg.heartbeatTTL)).1 = .ok [] :=
      congrArg Except.ok (y.1.1.staleNodes_of_noStale hns)
    rw [hnone]
    refine Act.wp_pure.mpr fun u hzu _ ↦ wp_schedulePass hp fun id hid ↦ ?_
    rw [(hzu.jobs id hid).2, (hyz.jobs id hid).2, (hxy.jobs id hid).2, h id hid]

end Pass

/-! ## The endings -/

section Endings

variable {job : Job} {st : JobStatus} {y : Tracked}

/-- The last write of an ending. -/
theorem wp_updateStatus (hown : ∀ id, own id = i ↔ id = job.jobID)
    (hrow : x.1.1.jobs.find? job.jobID = some job)
    (hgone : x.2 job.jobID = true ∨ x.1.1.nodes.find? job.nodeID = none)
    (hst : st.isTerminal = true) :
    (Jobs.updateStatus job.jobID st).wp (logic own i op)
      (fun _ _ x ↦ ∀ id, own id = i → x.2 id = false) m x := by
  have hmine : own job.jobID = i := (hown _).mpr rfl
  refine wp_issue fun y hxy hy now _ _ ↦ ?_
  have hrow' : y.1.1.jobs.find? job.jobID = some job := (hxy.jobs _ hmine).1.trans hrow
  have hgone' : y.2 job.jobID = true ∨ y.1.1.nodes.find? job.nodeID = none :=
    hgone.imp (fun h ↦ (hxy.jobs _ hmine).2.trans h) fun h ↦ hxy.missing _ h
  refine ⟨hy.finish hrow' hgone' hst, frame_finish st hmine, fun z hz _ id hid ↦ ?_⟩
  rw [(hz.jobs id hid).2, (hown id).mp hid]
  exact Function.update_self _ _ _

/-- What both kinds of ending do with an active job: its request is returned to its node, if there
is one, before its status is written. -/
theorem wp_releaseThen {α : Type} {fin : StoreM α} {Q : α → Mem → Tracked → Prop} (hi : i ≠ 0)
    (hown : ∀ id, own id = i ↔ id = job.jobID) (hact : job.status.isActive = true)
    (hrow : x.1.1.jobs.find? job.jobID = some job) (hflag : x.2 job.jobID = false)
    (hfin : ∀ m y, y.1.1.jobs.find? job.jobID = some job →
      y.2 job.jobID = true ∨ y.1.1.nodes.find? job.nodeID = none →
      fin.wp (logic own i op) Q m y) :
    (do
      match ← Nodes.get job.nodeID with
      | .error _ => fin
      | .ok node => do
        let node := node.release job.resourceRequest
        Act.modify fun m ↦ { m with nodes := [node] }
        let _ ← Nodes.updateAvailability node
        fin : StoreM α).wp (logic own i op) Q m x := by
  have hmine : own job.jobID = i := (hown _).mpr rfl
  refine Act.wp_bind.mpr (wp_read (fun _ ↦ rfl) (fun s _ _ ↦ ?_) fun y hxy hy now _ z hz _ ↦ ?_)
  · simp only [Store.perform]
    split <;> exact ⟨rfl, rfl⟩
  have hrow : z.1.1.jobs.find? job.jobID = some job := by
    rw [(hz.jobs _ hmine).1]
    simp only [after, Store.perform]
    split <;> exact (hxy.jobs _ hmine).1.trans hrow
  have hflag : z.2 job.jobID = false :=
    (hz.jobs _ hmine).2.trans ((hxy.jobs _ hmine).2.trans hflag)
  simp only [Store.perform]
  cases hn : y.1.1.nodes.find? job.nodeID with
  | none =>
      refine hfin _ z hrow (.inr (hz.missing _ ?_))
      simp only [after, Store.perform, hn]
  | some n =>
      have hid : n.nodeID = job.nodeID := Table.key_of_find? hn
      -- the copy just read is fresh, and stays so until somebody writes the row
      have hfresh : Fresh i n z := by
        refine Fresh.rely (x := after own i (.nodesGet job.nodeID) now y)
          (Fresh.of_find? ?_ ?_) hz
        · simp only [after, Store.perform, hn, hid]
        · simp [after, Versions.after, hid]
      refine Act.wp_bind.mpr (Act.wp_modify.mpr fun u hzu _ ↦ Act.wp_bind.mpr ?_)
      refine wp_issue fun w huw hw now _ hcur ↦ ?_
      have hrow : w.1.1.jobs.find? job.jobID = some job := by
        rw [(huw.jobs _ hmine).1, (hzu.jobs _ hmine).1, hrow]
      have hflag : w.2 job.jobID = false := by
        rw [(huw.jobs _ hmine).2, (hzu.jobs _ hmine).2, hflag]
      obtain ⟨r, hr, hcap, -, havail⟩ := (hfresh.rely hzu).rely huw
      have havail : r.avail = n.avail := havail hcur
      have htr : ∀ id, transit own i w.2 (write (n.release job.resourceRequest)) id =
          if own id = i then true else w.2 id := fun id ↦ by
        simp only [transit, hi, ne_eq, not_false_eq_true, decide_true]
      have hflag' : transit own i w.2 (write (n.release job.resourceRequest)) job.jobID = true := by
        rw [htr, if_pos hmine]
      refine ⟨Inv.write hw hr hrow hid.symm (fun id hne ↦ ?_) fun d ↦ ?_, frame_write,
        fun v hwv _ ↦ hfin _ v ((hwv.jobs _ hmine).1.trans hrow)
          (.inl ((hwv.jobs _ hmine).2.trans hflag'))⟩
      · rw [htr, if_neg fun h ↦ hne ((hown id).mp h)]
      · -- what the job takes is part of what is missing from the capacity: nothing is cut off
        have husage : job.usage n.nodeID d = job.request d := Job.usage_of_active hact hid.symm d
        have hle : job.usage n.nodeID d ≤ w.1.1.jobs.sum (settled w.2 n.nodeID d) := by
          rw [← settled_of_not_transit hflag]
          refine Table.le_sum hrow fun j hj ↦ ?_
          rw [settled]
          split
          · exact le_rfl
          · exact Job.usage_nonneg (hw.requests j hj) _ _
        have hbooks := hw.books r (Table.mem_of_find? hr) d
        have hrid : r.nodeID = n.nodeID := Table.key_of_find? hr
        rw [settled_of_not_transit hflag, settled_of_transit hflag', Node.nodeID_release,
          Node.avail_release, ← hcap, ← havail, husage]
        rw [hrid] at hbooks
        rw [husage, Job.request] at hle
        rw [Job.request]
        omega

/-- Reading the row of the job. -/
theorem wp_jobsGet (hmine : own job.jobID = i) (hrow : x.1.1.jobs.find? job.jobID = some job)
    {Q : Except StoreError Job → Mem → Tracked → Prop}
    (h : ∀ z, Frame own (· = i) x z → Q (.ok job) m z) :
    (Jobs.get job.jobID).wp (logic own i op) Q m x := by
  refine wp_look (fun _ ↦ rfl) (fun _ ↦ rfl) (fun s _ _ ↦ ?_) fun y hxy _ _ _ z hyz _ ↦ ?_
  · simp only [Store.perform]
    split <;> exact ⟨rfl, rfl⟩
  · have hy : y.1.1.jobs.find? job.jobID = some job := (hxy.jobs _ hmine).1.trans hrow
    simp only [Store.perform, hy]
    exact h z (hxy.trans hyz)

/-- A job without a node has nothing to return. -/
theorem Inv.missing_of_unassigned (h : Inv own x) (hid : job.nodeID = "") :
    x.1.1.nodes.find? job.nodeID = none :=
  Table.find?_eq_none.mpr fun n hn heq ↦ h.named n hn (heq.trans hid)

theorem wp_releaseAndFinalize (hi : i ≠ 0) (hown : ∀ id, own id = i ↔ id = job.jobID)
    (hact : job.status.isActive = true) (hrow : x.1.1.jobs.find? job.jobID = some job)
    (hflag : x.2 job.jobID = false) (hst : st.isTerminal = true) :
    (Grpc.releaseAndFinalize job st).wp (logic own i op)
      (fun _ _ x ↦ ∀ id, own id = i → x.2 id = false) m x := by
  rw [Grpc.releaseAndFinalize]
  split
  · exact wp_releaseThen hi hown hact hrow hflag fun m y hrow hgone ↦
      wp_updateStatus hown hrow hgone hst
  · rename_i hid
    have hmine : own job.jobID = i := (hown _).mpr rfl
    refine Act.wp_of_forall fun y hxy hy ↦ wp_updateStatus hown ((hxy.jobs _ hmine).1.trans hrow)
      (.inr (Inv.missing_of_unassigned hy (not_not.mp hid))) hst

theorem wp_updateJobStatus (hi : i ≠ 0) (hown : ∀ id, own id = i ↔ id = job.jobID)
    (hact : job.status.isActive = true) (hrow : x.1.1.jobs.find? job.jobID = some job)
    (hflag : x.2 job.jobID = false) (hst : st = .completed ∨ st = .failed) (nodeID : String) :
    (Grpc.updateJobStatus ⟨job.jobID, nodeID, st⟩).wp (logic own i op)
      (fun _ _ x ↦ ∀ id, own id = i → x.2 id = false) m x := by
  have hmine : own job.jobID = i := (hown _).mpr rfl
  refine Act.wp_bind.mpr (wp_jobsGet hmine hrow fun z hxz ↦ ?_)
  have hrow := (hxz.jobs _ hmine).1.trans hrow
  have hflag := (hxz.jobs _ hmine).2.trans hflag
  have hlanded : ∀ {α : Type} {a : α} {m y}, (∀ id, own id = i → y.2 id = false) →
      (pure a : StoreM α).wp (logic own i op) (fun _ _ x ↦ ∀ id, own id = i → x.2 id = false) m y :=
    fun h ↦ Act.wp_pure.mpr fun u hyu _ id hid ↦ (hyu.jobs id hid).2.trans (h id hid)
  rcases hst with rfl | rfl <;>
    exact Act.wp_bind.mpr ((wp_releaseAndFinalize hi hown hact hrow hflag rfl).mono
      fun r _ _ _ h ↦ by cases r <;> exact hlanded h)

theorem wp_handleCancelJob (hi : i ≠ 0) (hown : ∀ id, own id = i ↔ id = job.jobID)
    (hact : job.status.isActive = true) (hrow : x.1.1.jobs.find? job.jobID = some job)
    (hflag : x.2 job.jobID = false) :
    (Api.handleCancelJob job.jobID).wp (logic own i op)
      (fun _ _ x ↦ ∀ id, own id = i → x.2 id = false) m x := by
  have hmine : own job.jobID = i := (hown _).mpr rfl
  refine Act.wp_bind.mpr (wp_jobsGet hmine hrow fun z hxz ↦ ?_)
  have hrow := (hxz.jobs _ hmine).1.trans hrow
  have hflag := (hxz.jobs _ hmine).2.trans hflag
  have hfin : ∀ m y, y.1.1.jobs.find? job.jobID = some job →
      y.2 job.jobID = true ∨ y.1.1.nodes.find? job.nodeID = none →
      (Api.finishCancel job).wp (logic own i op)
        (fun _ _ x ↦ ∀ id, own id = i → x.2 id = false) m y := fun m y hrow hgone ↦
    Act.wp_bind.mpr ((wp_updateStatus hown hrow hgone rfl).mono fun r _ _ _ h ↦ by
      cases r <;> exact Act.wp_pure.mpr fun u hyu _ id hid ↦ (hyu.jobs id hid).2.trans (h id hid))
  simp only [JobStatus.isTerminal_of_isActive hact, hact, Bool.true_and]
  by_cases hid : job.nodeID = ""
  · simp only [hid, ne_eq, not_true_eq_false, decide_false, Bool.false_eq_true, if_false]
    exact Act.wp_of_forall fun y hzy hy ↦ hfin _ y ((hzy.jobs _ hmine).1.trans hrow)
      (.inr (Inv.missing_of_unassigned hy hid))
  · simp only [hid, ne_eq, not_false_eq_true, decide_true, if_true, Bool.false_eq_true, if_false]
    exact wp_releaseThen hi hown hact hrow hflag hfin

end Endings

/-- The outline: what is not a thread's own it leaves alone, so the others may rely on theirs. -/
def outline (own : String → Nat) :
    Pool.Outline (Pool.withAux onVersions fun i _ c _ _ tr ↦ transit own i tr c)
      (fun i op m c env x ↦ QuietCurrent i op m c env x.1) Unit where
  logic := logic own
  post i _ _ x := ∀ id, own id = i → x.2 id = false
  inv := Inv own
  exec_eq _ _ := rfl
  admits_eq _ _ := rfl
  inv_eq _ _ := rfl
  guar_rely i _ j _ _ _ hij _ _ h := h.mono fun k hk ↦ by
    rw [hk]
    exact Ne.symm hij

end Outline

/-- When nothing is in transit, the books are right. -/
theorem Inv.accounted {own : String → Nat} {x : Tracked} (h : Inv own x)
    (hlanded : ∀ id, x.2 id = false) : x.1.1.Accounted := by
  intro n hn d
  rw [h.books n hn d, Store.load]
  congr 1
  exact Table.sum_congr fun j _ ↦ settled_of_not_transit (hlanded _) _ _

/-- The threads of a pass and of endings of active jobs meet their obligations. -/
theorem holds_start {e : Engine} (hp : e.cfg.enablePreemption = false) {clock : Clock}
    {ends : List Ending} (hnd : (ends.map Ending.jobID).Nodup) {s : Store} (ha : s.Accounted)
    (hr : s.NonnegRequests) (hnamed : ∀ n ∈ s.nodes.rows, n.nodeID ≠ "")
    (hact : ∀ x ∈ ends, ∃ j, s.jobs.find? x.jobID = some j ∧ j.status.isActive = true) :
    (outline (owner ends)).Holds
      ⟨passAndEndings e clock ends, ((s, .initial), fun _ ↦ false)⟩ := by
  refine ⟨⟨fun n hn d ↦ ?_, hr, hnamed, fun j hj hne hq ↦ ?_⟩, fun i op p hi ↦ ?_⟩
  · rw [ha n hn d, Store.load]
    rfl
  · -- a job that belongs to an ending is active, not queued
    obtain ⟨x, hx, hid⟩ := List.mem_map.mp (by_contra fun hn ↦ hne (if_neg hn) :
      j.jobID ∈ ends.map Ending.jobID)
    obtain ⟨j', hj', hactive⟩ := hact x hx
    rw [hid, Table.find?_key hj, Option.some.injEq] at hj'
    subst hj'
    rw [hq] at hactive
    cases hactive
  · rw [passAndEndings, List.map_cons, List.map_map] at hi
    have hstable : ∀ i (x y : Tracked), (∀ id, owner ends id = i → x.2 id = false) →
        (logic (owner ends) i op).rely x y → (logic (owner ends) i op).inv y →
        ∀ id, owner ends id = i → y.2 id = false := fun i x y h hxy _ id hid ↦
      (hxy.jobs id hid).2.trans (h id hid)
    cases i with
    | zero =>
        simp only [List.getElem?_cons_zero, Option.some.injEq, Prod.mk.injEq] at hi
        obtain ⟨rfl, rfl⟩ := hi
        exact Act.wp_thread (hstable 0) (wp_tick hp fun _ _ ↦ rfl)
    | succ k =>
        rw [List.getElem?_cons_succ, List.getElem?_map, Option.map_eq_some_iff] at hi
        obtain ⟨x, hx, heq⟩ := hi
        simp only [Function.comp_apply, Prod.mk.injEq] at heq
        obtain ⟨rfl, rfl⟩ := heq
        obtain ⟨job, hrow, hactive⟩ := hact x (List.mem_of_getElem? hx)
        have hid : job.jobID = x.jobID := Table.key_of_find? hrow
        have howner : owner ends x.jobID = k + 1 := owner_of_getElem? hnd hx
        have hown : ∀ id, owner ends id = k + 1 ↔ id = job.jobID := fun id ↦ by
          rw [hid]
          constructor
          · intro h
            exact owner_inj (h.trans howner.symm) (by rw [h]; exact Nat.succ_ne_zero k)
          · rintro rfl
            exact howner
        rw [← hid] at hrow
        have hne := Nat.succ_ne_zero k
        cases x with
        | completed id nodeID =>
            obtain rfl : job.jobID = id := hid
            exact Act.wp_thread (hstable _)
              (wp_updateJobStatus hne hown hactive hrow rfl (.inl rfl) nodeID)
        | failed id nodeID =>
            obtain rfl : job.jobID = id := hid
            exact Act.wp_thread (hstable _)
              (wp_updateJobStatus hne hown hactive hrow rfl (.inr rfl) nodeID)
        | cancelled id =>
            obtain rfl : job.jobID = id := hid
            exact Act.wp_thread (hstable _) (wp_handleCancelJob hne hown hactive hrow rfl)

end LostUpdate

/-- **No update is lost when every write is in time.**  A pass without preemption and any number
of endings of different active jobs are carried out in any interleaving; no call fails and no node
is stale.  If every write of an availability hits the version of the row that its thread has seen
last, then the books are right when all are over. -/
theorem accounted_of_current {e : Engine} (hp : e.cfg.enablePreemption = false) {clock : Clock}
    {ends : List Ending} (hnd : (ends.map Ending.jobID).Nodup) {s : Store} (ha : s.Accounted)
    (hr : s.NonnegRequests) (hnamed : ∀ n ∈ s.nodes.rows, n.nodeID ≠ "")
    (hact : ∀ x ∈ ends, ∃ j, s.jobs.find? x.jobID = some j ∧ j.status.isActive = true)
    {P : Plane (Store × Versions)}
    (h : Pool.Reach onVersions QuietCurrent NothingElse
      ⟨passAndEndings e clock ends, (s, .initial)⟩ P)
    (hover : ∀ t ∈ P.threads, t.2.isOver = true) : P.shared.1.Accounted := by
  obtain ⟨tr, hreach⟩ := Pool.reach_aux
    (fun i _ c _ _ tr ↦ LostUpdate.transit (LostUpdate.owner ends) i tr c) h fun _ ↦ false
  have hP := (LostUpdate.holds_start hp hnd ha hr hnamed hact).reach (fun _ _ _ _ hs ↦ hs.elim)
    hreach
  refine hP.1.accounted fun id ↦ ?_
  -- the thread that owns the job is over, and so the job has landed
  have hlen : LostUpdate.owner ends id < P.threads.length := by
    have hle := Pool.length_le_of_reach h
    have := LostUpdate.owner_le ends id
    simp only [passAndEndings, List.map_cons, List.length_cons, List.length_map] at hle
    omega
  have hget := List.getElem?_eq_getElem hlen
  obtain ⟨_, hret⟩ := Prog.eq_ret_of_isOver (hover _ (List.getElem_mem hlen))
  have hthread : P.threads[LostUpdate.owner ends id]? =
      some ((P.threads[LostUpdate.owner ends id]).1, .ret ()) := by
    rw [hget, ← hret]
  exact hP.post hthread id rfl

namespace LostUpdate

/-- A pass, and the report that the running job has completed. -/
def threads : List (Operation × Prog Call Call.Ret Mem Unit) :=
  passAndEndings ⟨.firstFit, ⟨1, 100, false, 100⟩⟩ ⟨2, 2⟩ [.completed "v" "n"]

end LostUpdate

/-- The pass reads the nodes after the release is written and before the job's status is. -/
theorem accounted_of_current_overlap :
    (Pool.play onVersions (turns [0, 1, 1, 1, 0, 0, 0, 1, 0, 0, 0, 0])
      ⟨LostUpdate.threads, (Small.halfUsed, .initial)⟩).shared.1.Accounted :=
  accounted_of_current rfl (by decide) (by decide) (by decide) (by decide) (by decide)
    (Pool.reach_play (by decide +kernel)) (by decide +kernel)

/-- **A pass loses a release.**  The pass reads the nodes, then the report is served, and then the
pass writes what it makes of its old copy: one job runs on a node with two GPUs, none of which is
available. -/
theorem tick_loses_release :
    Small.halfUsed.Accounted ∧ Small.halfUsed.NonnegRequests ∧
      ∃ P : Plane Store,
        Pool.Reach onStore Quiet NothingElse ⟨LostUpdate.threads, Small.halfUsed⟩ P ∧
          (∀ t ∈ P.threads, t.2.isOver = true) ∧ ¬ P.shared.Accounted :=
  ⟨by decide, by decide, Pool.play onStore (turns [0, 0, 1, 1, 1, 1, 0, 0, 0, 0, 0, 0])
    ⟨LostUpdate.threads, Small.halfUsed⟩, Pool.reach_play (by decide +kernel),
    by decide +kernel, by decide +kernel⟩

end GpuScheduler
