import GpuScheduler.Accounting.Pass
import GpuScheduler.Lib.Clamp

/-!
# What an eviction does to the books

`applyPreemption` returns the request of every victim of its plan to the plan's node and puts the
victims back into the queue.  A victim whose row is active on that node was owed its request; for
one whose row is no longer active the request is returned a second time.  `Evicted` says what the
store looks like after the victims have been dealt with, and `Evicted.drift_writeBack` what the
node's drift is once its availability has been written back.
-/

namespace GpuScheduler

open Lib Models Scheduler

namespace Store

/-- Whether the victim's row is no longer active, so that its request was returned before. -/
def again (s : Store) (v : Job) : Bool :=
  match s.jobs.find? v.jobID with
  | some j => !j.status.isActive
  | none => true

/-- The return of a victim's request in one resource. -/
def credit (s : Store) (d : Resource) (v : Job) : Credit Int := ⟨v.request d, s.again v⟩

end Store

/-- The availability of a node is a counter with the capacity as its ceiling. -/
theorem avail_releaseAll (s : Store) (node : Node) (vs : List Job) (d : Resource) :
    (releaseAll node vs).avail d = settle (node.cap d) (node.avail d) (vs.map (s.credit d)) := by
  induction vs generalizing node with
  | nil => rfl
  | cons v vs ih =>
      rw [releaseAll_cons, ih, List.map_cons, settle, Node.cap_release, Node.avail_release]
      rfl

/-- Returning requests never lowers what is available. -/
theorem le_avail_releaseAll {node : Node} {vs : List Job} {d : Resource}
    (h : node.avail d ≤ node.cap d) (hvs : ∀ v ∈ vs, ∀ d, 0 ≤ v.request d) :
    node.avail d ≤ (releaseAll node vs).avail d := by
  induction vs generalizing node with
  | nil => exact le_rfl
  | cons v vs ih =>
      have hv : 0 ≤ v.resourceRequest.amount d := hvs v List.mem_cons_self d
      have hstep : node.avail d ≤ (node.release v.resourceRequest).avail d := by
        rw [Node.avail_release]
        omega
      refine hstep.trans (ih ?_ fun w hw ↦ hvs w (List.mem_cons_of_mem v hw))
      rw [Node.avail_release, Node.cap_release]
      exact min_le_left _ _

/-- The victims `vs` of a plan for node `id` have been put back into the queue. -/
structure Evicted (id : String) (vs : List Job) (s t : Store) : Prop where
  nodes : t.nodes = s.nodes
  others : ∀ k, (∀ v ∈ vs, v.jobID ≠ k) → t.jobs.find? k = s.jobs.find? k
  victims : ∀ v ∈ vs, ∀ j, t.jobs.find? v.jobID = some j → j.status = .queued
  requests : s.NonnegRequests → t.NonnegRequests
  load : ∀ d, t.load id d = s.load id d - owed (vs.map (s.credit d))
  loads : ∀ k, k ≠ id → ∀ d, t.load k d = s.load k d

/-- The victims of a plan are on the plan's node as far as they are anywhere, and their requests
are known. -/
def Victims (id : String) (vs : List Job) (s : Store) : Prop :=
  (vs.map Job.jobID).Nodup ∧ ∀ v ∈ vs, ∀ j, s.jobs.find? v.jobID = some j →
    j.status.isActive = true → j.nodeID = id ∧ j.request = v.request

namespace Evicted

variable {id : String} {v : Job} {vs : List Job} {s t : Store}

theorem refl (s : Store) : Evicted id [] s s where
  nodes := rfl
  others _ _ := rfl
  victims _ hv := absurd hv List.not_mem_nil
  requests h := h
  load d := by simp
  loads _ _ _ := rfl

/-- One victim: its row becomes queued, and what it took is no longer taken. -/
theorem single (hv : Victims id [v] s) (now : Time) :
    Evicted id [v] s ((s.requeue v.jobID .preempted).updateStatus v.jobID .queued now) := by
  have hother : ∀ k, k ≠ v.jobID →
      ((s.requeue v.jobID .preempted).updateStatus v.jobID .queued now).jobs.find? k =
        s.jobs.find? k := fun k hk ↦ by
    rw [Store.jobs_updateStatus, Table.find?_modify_of_ne _ hk, Store.jobs_requeue,
      Table.find?_modify_of_ne _ hk]
  have hload : ∀ k d, ((s.requeue v.jobID .preempted).updateStatus v.jobID .queued now).load k d =
      s.load k d - if k = id then (if s.again v then 0 else v.request d) else 0 := fun k d ↦ by
    cases hj : s.jobs.find? v.jobID with
    | none =>
        have hr : s.requeue v.jobID .preempted = s := by
          rw [Store.requeue, Table.modify_of_find?_none hj]
        have hu : s.updateStatus v.jobID .queued now = s := by
          rw [Store.updateStatus, Table.modify_of_find?_none hj]
        rw [hr, hu]
        simp [Store.again, hj]
    | some j =>
        have hj' : (s.requeue v.jobID .preempted).jobs.find? v.jobID =
            some (j.requeued .preempted) := by
          rw [Store.jobs_requeue, Table.find?_modify_self, hj, Option.map_some]
        rw [Store.load_updateStatus_of_not_active hj' rfl rfl, Store.load_requeue hj,
          Job.usage_requeued_of_not_active _ rfl, add_zero]
        congr 1
        cases ha : j.status.isActive with
        | false => simp [Job.usage_of_not_active ha, Store.again, hj, ha]
        | true =>
            obtain ⟨hid, hreq⟩ := hv.2 v List.mem_cons_self j hj ha
            by_cases hk : k = id
            · subst hk
              simp [Job.usage_of_active ha hid, Store.again, hj, ha, hreq]
            · simp [Job.usage_of_ne (fun h ↦ hk (h.symm.trans hid)), hk]
  refine ⟨rfl, fun k hk ↦ hother k (Ne.symm (hk v List.mem_cons_self)), ?_, ?_, fun d ↦ ?_,
    fun k hk d ↦ ?_⟩
  · intro w hw j hj
    rw [List.mem_singleton.mp hw, Store.jobs_updateStatus, Table.find?_modify_self] at hj
    obtain ⟨j₀, -, rfl⟩ := Option.map_eq_some_iff.mp hj
    rfl
  · exact fun h ↦ (h.requeue .preempted).updateStatus .queued now
  · rw [hload, if_pos rfl]
    simp [Store.credit]
  · rw [hload, if_neg hk, sub_zero]

theorem again_eq (h : Evicted id [v] s t) {w : Job} (hw : w.jobID ≠ v.jobID) :
    t.again w = s.again w := by
  rw [Store.again, Store.again, h.others w.jobID]
  intro x hx
  rw [List.mem_singleton.mp hx]
  exact hw.symm

/-- The victims that are left are as they were. -/
theorem tail (h : Evicted id [v] s t) (hv : Victims id (v :: vs) s) : Victims id vs t := by
  have hn := List.nodup_cons.mp hv.1
  refine ⟨hn.2, fun w hw j hj ↦ hv.2 w (List.mem_cons_of_mem v hw) j ?_⟩
  rwa [h.others w.jobID] at hj
  intro x hx heq
  rw [List.mem_singleton.mp hx] at heq
  exact hn.1 (heq ▸ List.mem_map_of_mem hw)

/-- One victim after the other. -/
theorem cons {u : Store} (h : Evicted id [v] s t) (h' : Evicted id vs t u)
    (hn : ((v :: vs).map Job.jobID).Nodup) : Evicted id (v :: vs) s u := by
  have hne : ∀ w ∈ vs, w.jobID ≠ v.jobID := fun w hw heq ↦
    (List.nodup_cons.mp hn).1 (heq ▸ List.mem_map_of_mem hw)
  refine ⟨h'.nodes.trans h.nodes, fun k hk ↦ ?_, ?_, fun hr ↦ h'.requests (h.requests hr),
    fun d ↦ ?_, fun k hk d ↦ (h'.loads k hk d).trans (h.loads k hk d)⟩
  · rw [h'.others k fun w hw ↦ hk w (List.mem_cons_of_mem v hw), h.others k]
    intro w hw
    rw [List.mem_singleton.mp hw]
    exact hk v List.mem_cons_self
  · intro w hw j hj
    rcases List.mem_cons.mp hw with rfl | hw
    · rw [h'.others w.jobID hne] at hj
      exact h.victims w List.mem_cons_self j hj
    · exact h'.victims w hw j hj
  · have hc : vs.map (t.credit d) = vs.map (s.credit d) := by
      refine List.map_congr_left fun w hw ↦ ?_
      rw [Store.credit, Store.credit, h.again_eq (hne w hw)]
    rw [h'.load, h.load, hc, List.map_cons, List.map_cons, List.map_nil, owed_cons, owed_cons,
      owed_nil]
    omega

/-- **The drift of a node after an eviction.**  Its availability is right again when nothing is
left on the node, or when it was right before and no victim's request was returned twice. -/
theorem drift_writeBack (h : Evicted id vs s t) {node : Node} (hnode : node.nodeID = id)
    (hrow : s.nodes.find? id = some node) (hr : s.NonnegRequests)
    (hvs : ∀ v ∈ vs, ∀ d, 0 ≤ v.request d) {d : Resource} (h0 : 0 ≤ s.drift id d)
    (h1 : s.drift id d ≤ s.load id d) :
    0 ≤ (t.writeBack (releaseAll node vs)).drift id d ∧
      (t.writeBack (releaseAll node vs)).drift id d ≤ t.load id d ∧
      ((t.writeBack (releaseAll node vs)).drift id d = 0 ↔ t.load id d = 0 ∨
        (s.drift id d = 0 ∧ ∀ v ∈ vs, s.again v = true → v.request d = 0)) := by
  have hk : ∀ k ∈ vs.map (s.credit d), 0 ≤ k.amount := by
    intro k hk
    obtain ⟨v, hv, rfl⟩ := List.mem_map.mp hk
    exact hvs v hv d
  have howed : owed (vs.map (s.credit d)) ≤ s.load id d := by
    have := Store.load_nonneg (h.requests hr) id d
    rw [h.load] at this
    omega
  obtain ⟨e', hset, he0, he1, hiff⟩ := settle_excess (c := node.cap d) hk h0 h1 howed
  have havail : node.avail d = node.cap d - s.load id d + s.drift id d := by
    rw [Store.drift_of_find? hrow]
    omega
  have hrow' : (t.writeBack (releaseAll node vs)).nodes.find? id = some (releaseAll node vs) := by
    subst hnode
    have hfind : t.nodes.find? (releaseAll node vs).nodeID = some node := by
      rw [h.nodes, nodeID_releaseAll, hrow]
    simpa using Store.find?_writeBack_self hfind (setAvailable_releaseAll node vs)
  have hdrift : (t.writeBack (releaseAll node vs)).drift id d = e' := by
    rw [Store.drift_of_find? hrow', avail_releaseAll s, havail, hset, cap_releaseAll,
      Store.load_writeBack, h.load]
    omega
  rw [hdrift, h.load]
  refine ⟨he0, he1, hiff.trans (or_congr_right (and_congr_right fun _ ↦ ?_))⟩
  simp only [List.forall_mem_map]
  rfl

end Evicted

/-! ## The loop over the victims -/

/-- The eviction loop, when no call fails. -/
theorem wp_evictVictims {admits : Admits} (hok : ¬ CanFail admits) {node : Node} {vs : List Job}
    {m : Mem} {s : Store} (hm : m.putNode node = m) (hv : Victims node.nodeID vs s) :
    Wp admits (Engine.evictVictims node vs) (fun node' m' t ↦ node' = releaseAll node vs ∧
      m' = m.putNode (releaseAll node vs) ∧ Evicted node.nodeID vs s t) m s := by
  induction vs generalizing node m s with
  | nil => exact wp_evictVictims_nil ⟨rfl, hm.symm, .refl s⟩
  | cons v vs ih =>
      refine wp_evictVictims_cons (fun h ↦ absurd h hok) (fun h ↦ absurd h.canFail hok)
        fun now ↦ ?_
      have hv₁ : Victims node.nodeID [v] s := ⟨List.nodup_singleton _, fun w hw ↦
        hv.2 w (List.mem_singleton.mp hw ▸ List.mem_cons_self)⟩
      have h₁ := Evicted.single hv₁ now
      refine (@ih (node.release v.resourceRequest) _ _ (Mem.putNode_putNode m rfl)
        (h₁.tail hv)).mono ?_
      rintro node' m' t - ⟨rfl, rfl, ht⟩
      refine ⟨rfl, ?_, h₁.cons ht hv.1⟩
      rw [Mem.putNode_putNode m (nodeID_releaseAll _ vs).symm, releaseAll_cons]

end GpuScheduler
