import GpuScheduler.Accounting.Load
import GpuScheduler.Concurrent.OperationSpec
import GpuScheduler.Scheduler.PassSpec

/-!
# Whether final states are final

A job that is completed, failed or cancelled should stay so.  No statement of the store looks at
the status it overwrites, so this depends on when the operations read a row and when they write
it.  A report does not look at the status at all, and revives or relabels a job that is over
(`report_changes_final`); the other operations look, but another operation may end the job between
their read and their write.

`final_of_timely` says that nothing else goes wrong: when reports are only served for jobs that
are not over, and no operation writes the status of a job that another one has ended since the
operation read its row, then final states are final.  `overtaken` keeps count of the latter; it is
a history variable, which no operation can see.
-/

namespace GpuScheduler

open Lib Models Scheduler

/-! ## Statuses -/

/-- The status of a job. -/
def Store.statusOf (s : Store) (id : String) : Option JobStatus := (s.jobs.find? id).map Job.status

/-- Whether a job is over. -/
def Store.over (s : Store) (id : String) : Bool := (s.statusOf id).any JobStatus.isTerminal

/-- The job whose status a call writes, and the status. -/
def Call.sets : Call → Option (String × JobStatus)
  | .jobsUpdateStatus id st | .jobsRequeue id st => some (id, st)
  | .jobsSchedule id _ => some (id, .scheduled)
  | _ => none

/-- Whether a call ends the job. -/
def Call.ends (c : Call) (id : String) : Bool := c.sets.any fun w ↦ w.1 = id && w.2.isTerminal

/-- Whether a call returns the row of the job. -/
def Store.reads (s : Store) (id : String) : Call → Bool
  | .jobsGet id' => id' = id
  | .jobsListByStatuses ss => (s.statusOf id).any (· ∈ ss)
  | _ => false

section Statuses

variable {s : Store} {c : Call} {now : Time} {id id' : String} {st st' : JobStatus}

theorem over_of_statusOf (h : s.statusOf id = some st) : s.over id = st.isTerminal := by
  rw [Store.over, h, Option.any_some]

theorem statusOf_of_find? {j : Job} (h : s.jobs.find? id = some j) :
    s.statusOf id = some j.status := by rw [Store.statusOf, h, Option.map_some]

/-- A statement on one job. -/
theorem statusOf_modify {t : Store} {f : Job → Job} {hf : ∀ r : Job, (f r).jobID = r.jobID}
    (ht : t.jobs = s.jobs.modify id f hf) (hst : ∀ r, (f r).status = st) :
    t.statusOf id' = if id' = id then (s.statusOf id').map fun _ ↦ st else s.statusOf id' := by
  rw [Store.statusOf, Store.statusOf, ht, Table.find?_modify]
  split
  · rw [Option.map_map, Option.map_map]
    congr 1
    funext r
    exact hst r
  · rfl

/-- A call that writes a status writes that status and no other. -/
theorem statusOf_of_sets {w : String × JobStatus} (h : c.sets = some w) :
    (s.perform now c).2.statusOf id' =
      if id' = w.1 then (s.statusOf id').map fun _ ↦ w.2 else s.statusOf id' := by
  cases c with
  | jobsUpdateStatus _ _ =>
      obtain rfl := Option.some.inj h
      exact statusOf_modify (Store.jobs_updateStatus _ now) fun _ ↦ rfl
  | jobsRequeue _ _ =>
      obtain rfl := Option.some.inj h
      exact statusOf_modify (Store.jobs_requeue _) fun _ ↦ rfl
  | jobsSchedule _ _ =>
      obtain rfl := Option.some.inj h
      exact statusOf_modify (Store.jobs_schedule _) fun _ ↦ rfl
  | _ => cases h

theorem onJob_of_not_sets (h : c.sets = none) (j : Job) : c.onJob now j = j := by
  cases c with
  | jobsUpdateStatus _ _ | jobsRequeue _ _ | jobsSchedule _ _ => cases h
  | _ => rfl

/-- Any other call leaves the statuses of the jobs alone; a new job may appear. -/
theorem statusOf_of_not_sets (s : Store) (now : Time) (id : String) (h : c.sets = none) :
    (s.perform now c).2.statusOf id = s.statusOf id ∨ ∃ j, c = .jobsCreate j ∧
      s.statusOf id = none ∧ (s.perform now c).2.statusOf id = some j.status := by
  rcases s.find?_jobs_perform now c id with heq | ⟨j, hc, hnone, heq⟩
  · have hid : c.onJob now = fun j ↦ j := funext (onJob_of_not_sets h)
    refine .inl ?_
    rw [Store.statusOf, Store.statusOf, heq, hid, Option.map_id']
  · refine .inr ⟨j, hc, ?_, ?_⟩
    · rw [Store.statusOf, hnone, Option.map_none]
    · rw [Store.statusOf, heq, Option.map_some]
      rfl

end Statuses

/-! ## Overtaken operations -/

/-- Which jobs each thread has been overtaken on: another thread has ended the job since the thread
read its row. -/
abbrev Overtaken : Type := Nat → String → Bool

/-- Thread `i` issues a call on the store `s`. -/
def overtake (i : Nat) (c : Call) (env : Env) (s : Store) (o : Overtaken) : Overtaken := fun j id ↦
  if env.fails then o j id
  else if j = i then !s.reads id c && o j id
  else o j id || c.ends id

/-- Calls are executed on the store, and it is kept count of who is overtaken. -/
def onWatched : Pool.Handler Operation Call Call.Ret (Store × Overtaken) Env :=
  Pool.withAux onStore fun i _ c env s o ↦ overtake i c env s o

/-- A thread does not write the status of a job that it has been overtaken on. -/
def Overtaken.Timely (o : Overtaken) (i : Nat) (c : Call) : Prop :=
  ∀ w ∈ c.sets, o i w.1 = false

instance (o : Overtaken) (i : Nat) (c : Call) : Decidable (o.Timely i c) :=
  inferInstanceAs (Decidable (∀ w ∈ c.sets, o i w.1 = false))

/-- A report is served for a job that is not over. -/
def ReportNeeded (s : Store) : Operation → Call → Prop
  | .report _, .jobsGet id => s.over id = false
  | _, _ => True

instance (s : Store) : ∀ op c, Decidable (ReportNeeded s op c)
  | .report _, .jobsGet id => inferInstanceAs (Decidable (s.over id = false))
  | .report _, .jobsCreate _ | .report _, .jobsListByStatuses _
  | .report _, .jobsListScheduledForNode _ | .report _, .jobsUpdateStatus _ _
  | .report _, .jobsSchedule _ _ | .report _, .jobsRequeue _ _ | .report _, .jobsTeamGPUUsage
  | .report _, .nodesUpsert _ | .report _, .nodesGet _ | .report _, .nodesList
  | .report _, .nodesUpdateAvailability _ _ _ _ | .report _, .nodesHeartbeat _
  | .report _, .nodesSetStatus _ _ | .report _, .nodesMarkStaleDown _ | .report _, .eventsRecord _
  | .tick _ _, _ | .cancel _, _ | .submit _ _ _ _, _ | .register _, _ | .heartbeat _, _
  | .assignments _, _ | .cordon _, _ | .drain _, _ | .uncordon _, _ | .markStaleDown _, _ =>
      .isTrue trivial

/-- The condition on a step. -/
def Timely : Pool.Policy Operation Call Mem (Store × Overtaken) Env := fun i op _ c _ x ↦
  x.2.Timely i c ∧ ReportNeeded x.1 op c

instance : ∀ i op m c env x, Decidable (Timely i op m c env x) := fun i op _ c _ x ↦
  inferInstanceAs (Decidable (x.2.Timely i c ∧ ReportNeeded x.1 op c))

namespace Finality

/-! ## Interference -/

/-- What the others do to a job that thread `i` has not been overtaken on: they do not end it. -/
def Rely (i : Nat) (x y : Store × Overtaken) : Prop :=
  ∀ id, y.2 i id = false → x.2 i id = false ∧ (x.1.over id = false → y.1.over id = false)

/-- Final statuses are kept. -/
def Final (s t : Store) : Prop :=
  ∀ id st, s.statusOf id = some st → st.isTerminal = true → t.statusOf id = some st

/-- The setting of thread `i`. -/
def logic (i : Nat) (op : Operation) : Logic Call Call.Ret Mem (Store × Overtaken) Env where
  exec := onWatched i op
  admits := Timely i op
  inv _ := True
  rely := Rely i
  guar x y := (∀ j, j ≠ i → Rely j x y) ∧ Final x.1 y.1
  held _ _ := True
  rely_refl _ _ h := ⟨h, fun h ↦ h⟩
  rely_trans h h' id hid := ⟨(h id (h' id hid).1).1, fun ho ↦
    (h' id hid).2 ((h id (h' id hid).1).2 ho)⟩

/-- Either the thread has been overtaken on the job, or the job is not over. -/
def Open (i : Nat) (id : String) (x : Store × Overtaken) : Prop :=
  x.2 i id = true ∨ x.1.over id = false

theorem Open.rely {i : Nat} {id : String} {x y : Store × Overtaken} (h : Open i id x)
    (hxy : Rely i x y) : Open i id y := by
  cases hy : y.2 i id with
  | true => exact .inl hy
  | false =>
      obtain ⟨hx, hkeep⟩ := hxy id hy
      rcases h with h | h
      · rw [hx] at h
        cases h
      · exact .inr (hkeep h)

/-! ## The calls -/

section Calls

variable {i : Nat} {op : Operation} {m : Mem} {c : Call} {env : Env} {x : Store × Overtaken}

/-- What a thread has to know before a call: a job whose status it writes is open, and a job it
creates is not over. -/
def Allowed (i : Nat) (c : Call) (x : Store × Overtaken) : Prop :=
  (∀ w ∈ c.sets, Open i w.1 x) ∧ ∀ j, c = .jobsCreate j → j.status.isTerminal = false

theorem Allowed.of_not_sets (hc : c.sets = none) (hcreate : ∀ j, c ≠ .jobsCreate j) :
    Allowed i c x := by
  refine ⟨fun w hw ↦ ?_, fun j hj ↦ absurd hj (hcreate j)⟩
  rw [hc] at hw
  cases hw

theorem Allowed.of_sets {id : String} {st : JobStatus} (hc : c.sets = some (id, st))
    (h : Open i id x) : Allowed i c x := by
  refine ⟨fun w hw ↦ ?_, fun j hj ↦ ?_⟩
  · rw [hc] at hw
    cases hw
    exact h
  · rw [hj] at hc
    cases hc

/-- A failing call does nothing. -/
theorem exec_of_fails (h : env.fails = true) : (onWatched i op c env x).2 = x := by
  have hs : (Store.exec c env x.1).2 = x.1 := by rw [Store.exec_of_fails h]
  have ho : overtake i c env x.1 x.2 = x.2 := by
    funext j id
    rw [overtake, if_pos h]
  exact Prod.ext hs ho

theorem exec_of_ok (h : env.fails = false) : (onWatched i op c env x).2 =
    ((x.1.perform env.now c).2, overtake i c env x.1 x.2) := by
  have hs : (Store.exec c env x.1).2 = (x.1.perform env.now c).2 := by rw [Store.exec_of_ok h]
  exact Prod.ext hs rfl

/-- A job whose status the call does not write and that is not over stays so. -/
theorem over_perform {s : Store} {now : Time} {id : String}
    (hcreate : ∀ j, c = .jobsCreate j → j.status.isTerminal = false) (hends : c.ends id = false)
    (h : s.over id = false) : (s.perform now c).2.over id = false := by
  cases hc : c.sets with
  | none =>
      rcases statusOf_of_not_sets s now id hc with heq | ⟨j, hj, -, hst⟩
      · rw [Store.over, heq]
        exact h
      · rw [over_of_statusOf hst, hcreate j hj]
  | some w =>
      rw [Store.over, statusOf_of_sets hc]
      split
      · rename_i hid
        rw [Call.ends, hc, Option.any_some, hid, decide_eq_true rfl, Bool.true_and] at hends
        cases s.statusOf id with
        | none => rfl
        | some st => exact hends
      · exact h

/-- **One call.**  A call that is allowed and timely keeps final statuses, and what the other
threads rely on. -/
theorem call (ha : Allowed i c x) (ht : x.2.Timely i c) :
    (∀ j, j ≠ i → Rely j x (onWatched i op c env x).2) ∧
      Final x.1 (onWatched i op c env x).2.1 := by
  cases hf : env.fails with
  | true =>
      rw [exec_of_fails hf]
      exact ⟨fun j _ id hid ↦ ⟨hid, fun h ↦ h⟩, fun id st h _ ↦ h⟩
  | false =>
      rw [exec_of_ok hf]
      constructor
      · intro j hj id hid
        simp only [overtake, hf, Bool.false_eq_true, if_false, if_neg hj, Bool.or_eq_false_iff]
          at hid
        exact ⟨hid.1, over_perform ha.2 hid.2⟩
      · intro id st hid hst
        cases hc : c.sets with
        | none =>
            rcases statusOf_of_not_sets x.1 env.now id hc with
              heq | ⟨j, -, hnone, -⟩
            · rw [heq, hid]
            · rw [hid] at hnone
              cases hnone
        | some w =>
            rw [statusOf_of_sets hc]
            split
            · -- the job is open and the thread not overtaken, so the job was not over
              rename_i heq
              have hopen := ha.1 w (by rw [hc]; rfl)
              rw [← heq] at hopen
              have hfree := ht w (by rw [hc]; rfl)
              rw [← heq] at hfree
              rcases hopen with h | h
              · rw [hfree] at h
                cases h
              · rw [over_of_statusOf hid, hst] at h
                cases h
            · exact hid

/-- What a thread knows of an open job survives its own calls, unless the call ends the job or
reads the row of a job that is over. -/
theorem Open.call {id : String} (h : Open i id x)
    (hcreate : ∀ j, c = .jobsCreate j → j.status.isTerminal = false) (hends : c.ends id = false)
    (hread : x.1.reads id c = true → x.1.over id = false) :
    Open i id (onWatched i op c env x).2 := by
  cases hf : env.fails with
  | true =>
      rw [exec_of_fails hf]
      exact h
  | false =>
      rw [exec_of_ok hf]
      have hkeep : x.1.over id = false → Open i id
          ((x.1.perform env.now c).2, overtake i c env x.1 x.2) := fun ho ↦
        .inr (over_perform hcreate hends ho)
      rcases h with h | h
      · cases hr : x.1.reads id c with
        | true => exact hkeep (hread hr)
        | false =>
            refine .inl ?_
            simp only [overtake, hf, Bool.false_eq_true, if_false, if_true, hr, Bool.not_false, h,
              Bool.and_self]
      · exact hkeep h

end Calls

/-! ## The operations -/

/-- What the answer of a listing tells: the jobs listed under statuses that are not final are
open. -/
def Answer (i : Nat) : (c : Call) → c.Ret → Store × Overtaken → Prop
  | .jobsListByStatuses ss, .ok js, x => (js.map Job.jobID).Nodup ∧
      ((∀ st ∈ ss, st.isTerminal = false) → ∀ j ∈ js, Open i j.jobID x)
  | _, _, _ => True

/-- The calls that a scheduling pass may issue. -/
def PassCall : Call → Prop
  | .jobsCreate _ | .jobsGet _ => False
  | .jobsListByStatuses ss => ∀ st ∈ ss, st.isTerminal = false
  | .jobsUpdateStatus _ st => st = .queued ∨ st = .failed
  | .jobsRequeue _ st => st.isTerminal = false
  | _ => True

section Operations

variable {i : Nat} {op : Operation} {m : Mem} {c : Call} {env : Env} {x : Store × Overtaken}

theorem Answer.rely {r : c.Ret} {y : Store × Overtaken} (h : Answer i c r x) (hxy : Rely i x y) :
    Answer i c r y := by
  cases c with
  | jobsListByStatuses ss =>
      cases r with
      | error _ => trivial
      | ok js => exact ⟨h.1, fun hss j hj ↦ (h.2 hss j hj).rely hxy⟩
  | _ => trivial

/-- A listing answers what it should. -/
theorem answer_exec : Answer i c (onWatched i op c env x).1 (onWatched i op c env x).2 := by
  cases c with
  | jobsListByStatuses ss =>
      cases hf : env.fails with
      | true =>
          have herr : (onWatched i op (.jobsListByStatuses ss) env x).1 = .error .failure := by
            change (Store.exec _ _ _).1 = _
            rw [Store.exec_of_fails hf]
          rw [herr]
          trivial
      | false =>
          have hok : (onWatched i op (.jobsListByStatuses ss) env x).1 =
              .ok (x.1.listByStatuses ss) := by
            change (Store.exec _ _ _).1 = _
            rw [Store.exec_of_ok hf]
            rfl
          rw [hok, exec_of_ok hf]
          refine ⟨x.1.nodup_listByStatuses ss, fun hss j hj ↦ .inr ?_⟩
          obtain ⟨hrow, hmem⟩ := List.mem_filter.mp (mem_sliceStable.mp hj)
          have hst : x.1.statusOf j.jobID = some j.status :=
            statusOf_of_find? (Table.find?_key hrow)
          exact (over_of_statusOf hst).trans (hss _ (by simpa using hmem))
  | _ => trivial

/-- What a pass knows of a job survives its calls, unless it declares the job failed. -/
theorem Open.pass {id : String} (h : Open i id x) (hc : PassCall c)
    (hne : c ≠ .jobsUpdateStatus id .failed) : Open i id (onWatched i op c env x).2 := by
  refine h.call (fun j hj ↦ ?_) ?_ fun hr ↦ ?_
  · subst hj
    exact hc.elim
  · cases c with
    | jobsUpdateStatus id' st =>
        rcases hc with rfl | rfl
        · simp [Call.ends, Call.sets, JobStatus.isTerminal]
        · have hid : id' ≠ id := fun heq ↦ hne (by rw [heq])
          simp [Call.ends, Call.sets, hid]
    | jobsRequeue id' st =>
        have hc : st.isTerminal = false := hc
        simp [Call.ends, Call.sets, hc]
    | jobsSchedule id' nodeID => simp [Call.ends, Call.sets, JobStatus.isTerminal]
    | _ => rfl
  · cases c with
    | jobsGet id' => exact hc.elim
    | jobsListByStatuses ss =>
        cases hst : x.1.statusOf id with
        | none => rw [Store.over, hst, Option.any_none]
        | some st =>
            rw [Store.reads, hst, Option.any_some] at hr
            rw [over_of_statusOf hst]
            exact hc st (by simpa using hr)
    | _ => cases hr

/-- A row that was read is the row in the store. -/
theorem exec_jobsGet {id : String} {j : Job}
    (h : (onWatched i op (.jobsGet id) env x).1 = .ok j) :
    x.1.jobs.find? id = some j ∧ (onWatched i op (.jobsGet id) env x).2.1 = x.1 := by
  change (Store.exec (.jobsGet id) env x.1).1 = .ok j at h
  change _ ∧ (Store.exec (.jobsGet id) env x.1).2 = x.1
  rw [Store.exec] at h ⊢
  split at h
  · cases h
  · simp only [Store.perform] at h ⊢
    cases hj : x.1.jobs.find? id with
    | none =>
        rw [hj] at h
        cases h
    | some j' =>
        rw [hj] at h
        simp only [Except.ok.injEq] at h
        rw [h, if_neg ‹_›]
        exact ⟨rfl, rfl⟩

/-- A scheduling pass. -/
def passSpec (i : Nat) (op : Operation) : PassSpec (logic i op) where
  nodeOK _ _ := True
  jobOK j x := Open i j.jobID x
  allowed c x := Allowed i c x ∧ PassCall c
  answer := Answer i
  node_stable h _ _ := h
  job_stable h hxy _ := h.rely hxy
  answer_stable h hxy _ := h.rely hxy
  held _ _ := trivial
  call _ ha ht := ⟨trivial, Finality.call ha.1 ht.1, answer_exec⟩
  node_call _ _ _ _ := trivial
  job_call h _ ha _ hne := h.pass ha.2 hne
  reserve _ _ _ := trivial
  release _ _ := trivial
  nodes _ _ _ := trivial
  queued h := h.2 (by decide)
  active h := ⟨h.1, h.2 (by decide)⟩
  read {c x} hc := by
    simp only [List.mem_cons, List.not_mem_nil, or_false] at hc
    rcases hc with rfl | rfl | rfl | rfl
    · exact ⟨.of_not_sets rfl (by simp), trivial⟩
    · exact ⟨.of_not_sets rfl (by simp), by simp [PassCall, JobStatus.isTerminal]⟩
    · exact ⟨.of_not_sets rfl (by simp), by simp [PassCall, JobStatus.isTerminal]⟩
    · exact ⟨.of_not_sets rfl (by simp), trivial⟩
  markStaleDown _ _ := ⟨.of_not_sets rfl (by simp), trivial⟩
  record _ _ := ⟨.of_not_sets rfl (by simp), trivial⟩
  schedule _ hj _ := ⟨.of_sets rfl hj, trivial⟩
  updateAvailability _ := ⟨.of_not_sets rfl (by simp), trivial⟩
  requeue hj st hst := ⟨.of_sets rfl hj, by rcases hst with rfl | rfl <;> rfl⟩
  requeued hj _ := ⟨.of_sets rfl hj, .inl rfl⟩
  failed hj := ⟨.of_sets rfl hj, .inr rfl⟩

/-- Reports and cancel requests. -/
def requestSpec (i : Nat) (op : Operation) : RequestSpec (logic i op) where
  nodeOK _ _ := True
  readOK j x := (j.status.isTerminal = false → Open i j.jobID x) ∧
    ((∃ req, op = .report req) → j.status.isTerminal = false)
  jobOK j x := Open i j.jobID x
  node_stable h _ _ := h
  read_stable h hxy _ := ⟨fun hj ↦ (h.1 hj).rely hxy, h.2⟩
  job_stable h hxy _ := h.rely hxy
  held _ _ := trivial
  getJob {m id env x} _ ht := by
    refine ⟨trivial, Finality.call (.of_not_sets rfl (by simp)) ht.1, fun j hj ↦ ?_⟩
    obtain ⟨hrow, hx⟩ := exec_jobsGet hj
    have hst := statusOf_of_find? hrow
    have hid : j.jobID = id := Table.key_of_find? hrow
    refine ⟨fun hopen ↦ .inr ?_, ?_⟩
    · rw [show ((logic i op).exec _ env x).2.1 = x.1 from hx, hid, over_of_statusOf hst, hopen]
    · rintro ⟨req, rfl⟩
      exact (over_of_statusOf hst).symm.trans ht.2
  unfinished h hj := h.1 hj
  getNode _ hj ht := ⟨trivial, Finality.call (.of_not_sets rfl (by simp)) ht.1,
    hj.pass trivial (by simp), fun _ _ ↦ trivial⟩
  release _ _ := trivial
  updateAvailability c hc _ hj _ ht := by
    subst hc
    exact ⟨trivial, Finality.call (.of_not_sets rfl (by simp)) ht.1, hj.pass trivial (by simp),
      trivial⟩
  updateStatus _ hj _ ht := ⟨trivial, Finality.call (.of_sets rfl hj) ht.1⟩

/-- Every operation meets its obligations. -/
theorem wp_thread (i : Nat) (op : Operation) :
    op.thread.wp (logic i op) (fun _ _ ↦ True) x := by
  refine op.wp_thread (fun e clock _ ↦ (passSpec i op).wp_tick) (fun req hreq ↦ ?_)
    (fun id _ ↦ (requestSpec i op).wp_handleCancelJob) fun c x hc _ ↦ ⟨trivial, fun env ht ↦ ?_⟩
  · exact (requestSpec i op).wp_updateJobStatus fun h ↦ h.1 (h.2 ⟨req, hreq⟩)
  · refine ⟨trivial, Finality.call ?_ ht.1⟩
    cases op with
    | tick _ _ | report _ | cancel _ => exact absurd hc id
    | submit req newID now retries =>
        obtain ⟨-, rfl⟩ := hc
        refine ⟨fun w hw ↦ absurd hw (by simp [Call.sets]), fun j hj ↦ ?_⟩
        cases hj
        rfl
    | register _ | assignments _ | markStaleDown _ =>
        obtain rfl := hc
        exact .of_not_sets rfl (by simp)
    | heartbeat _ | cordon _ | drain _ | uncordon _ =>
        rcases hc with rfl | rfl <;> exact .of_not_sets rfl (by simp)

/-- The outline: what a thread guarantees to each of the others is what that one relies on. -/
def outline : Pool.Outline onWatched Timely Unit where
  logic := logic
  post _ _ _ _ := True
  inv _ := True
  exec_eq _ _ := rfl
  admits_eq _ _ := rfl
  inv_eq _ _ := rfl
  guar_rely _ _ j _ _ _ hij _ _ h := h.1 j (Ne.symm hij)

end Operations

end Finality

/-- **Final states are final when every step is timely.**  Any operations are in progress and any
of their calls fail.  If every report is served for a job that is not over, and no thread writes
the status of a job that another one has ended since the thread read its row, then a job that is
completed, failed or cancelled has that status ever after. -/
theorem final_of_timely {s : Store} {P P' : Plane (Store × Overtaken)}
    (h : Pool.Reach onWatched Timely Starts ⟨[], (s, fun _ _ ↦ false)⟩ P)
    (h' : Pool.Reach onWatched Timely Starts P P') {id : String} {st : JobStatus}
    (hst : st.isTerminal = true) (hid : P.shared.1.statusOf id = some st) :
    P'.shared.1.statusOf id = some st := by
  have hstart : ∀ i op p (x : Store × Overtaken), Starts op p → True →
      p.wp (Finality.outline.logic i op) (Finality.outline.post i op) x := fun i op p x hp _ ↦
    hp ▸ Finality.wp_thread i op
  have hinit : Finality.outline.Holds ⟨[], (s, fun _ _ ↦ false)⟩ :=
    ⟨trivial, fun i op p hi ↦ by simp at hi⟩
  have hP := hinit.reach hstart h
  -- along the rest of the run, every step keeps the status
  induction h' with
  | refl => exact hid
  | @tail P₁ P₂ h₁ hstep ih =>
      rcases (hP.reach hstart h₁).guar hstep with hsame | ⟨i, op, hguar⟩
      · rw [hsame, ih]
      · exact hguar.2 id st ih hst

namespace Finality

/-- A job runs on a node. -/
def cluster : Store :=
  Small.store [Small.job "v" .running 1 1 "n" 0] [Small.node "n" .ready 2 1]

/-- The threads of two operations that have not begun. -/
def two (op op' : Operation) : List (Operation × Prog Call Call.Ret Mem Unit) :=
  [(op, op.thread), (op', op'.thread)]

/-- A cancel request is served before a pass begins. -/
def cancelled : Plane (Store × Overtaken) :=
  Pool.play onWatched (turns [0, 0, 0, 0])
    ⟨two (.cancel "v") (.tick ⟨.firstFit, ⟨1, 100, true, 100⟩⟩ ⟨2, 2⟩), (cluster, fun _ _ ↦ false)⟩

end Finality

/-- A pass that begins after the job is cancelled leaves it cancelled. -/
theorem final_of_timely_cancelled :
    (Pool.play onWatched (turns [1, 1, 1, 1]) Finality.cancelled).shared.1.statusOf "v" =
      some .cancelled :=
  final_of_timely ((reach_two _ _ _).trans (Pool.reach_play (by decide +kernel)))
    (Pool.reach_play (by decide +kernel)) rfl (by decide +kernel)

/-- **A report changes a final state.**  The job is cancelled, and then its agent reports that it
has completed. -/
theorem report_changes_final :
    ∃ P P' : Plane Store,
      Pool.Reach onStore Quiet Starts ⟨[], Finality.cluster⟩ P ∧
        Pool.Reach onStore Quiet Starts P P' ∧
        P.shared.statusOf "v" = some .cancelled ∧ P'.shared.statusOf "v" = some .completed :=
  ⟨_, _, (reach_two (.cancel "v") (.report ⟨"v", "n", .completed⟩) _).trans
      (Pool.reach_play (l := turns [0, 0, 0, 0]) (by decide +kernel)),
    Pool.reach_play (l := turns [1, 1, 1, 1]) (by decide +kernel),
    by decide +kernel, by decide +kernel⟩

end GpuScheduler
