import GpuScheduler.Lib.Select
import GpuScheduler.Store.Basic

/-!
# The job query

`JobRepository.List` of `internal/store/jobs.go` puts together the text of a query and the list of
its arguments.  Here the text is built as the source builds it, and it is then read back and
evaluated (`Lib.Select`): the query means its filter (`list_means_filter`).  That a row the database
returns is scanned into a `Job` unchanged is taken for granted, and so is what the database makes of
`=`, `IN`, `AND`, `ORDER BY` and `LIMIT`.

`ListByStatuses`, which the scheduler uses, is `List` with one field of the filter set, and the
listing in which `Store.listByStatuses` breaks ties is one that the query may return
(`returns_listByStatuses`).
-/

namespace GpuScheduler

open Lib Models

/-- The text of a status. -/
def Models.JobStatus.text : JobStatus → String
  | queued => "queued"
  | scheduled => "scheduled"
  | running => "running"
  | completed => "completed"
  | failed => "failed"
  | cancelled => "cancelled"
  | preempted => "preempted"

/-- An argument of a query. -/
inductive Arg
  | text (s : String)
  | int (n : Int)
deriving DecidableEq, Repr

/-- Narrows a job listing.  A status is any text here: it comes from the URL of a request. -/
structure JobFilter where
  status : String := ""
  userID : String := ""
  teamID : String := ""
  statuses : List String := []
  limit : Int := 0
deriving DecidableEq, Repr

/-- The local variables of `List`: the clauses, the arguments, and the number of the next
placeholder. -/
structure ListVars where
  clauses : List String := []
  args : List Arg := []
  i : ℕ := 1

namespace ListVars

/-- Require a column to have a value. -/
def equals (b : ListVars) (column value : String) : ListVars where
  clauses := b.clauses ++ [s!"{column} = ${b.i}"]
  args := b.args ++ [.text value]
  i := b.i + 1

/-- One turn of the loop over the statuses, with the placeholders so far. -/
def placeholderStep (r : List String × ListVars) (s : String) : List String × ListVars :=
  (r.1 ++ [s!"${r.2.i}"], { r.2 with args := r.2.args ++ [.text s], i := r.2.i + 1 })

/-- Require the status to be one of several. -/
def among (b : ListVars) (statuses : List String) : ListVars :=
  let r := statuses.foldl placeholderStep ([], b)
  { r.2 with clauses := r.2.clauses ++ ["status IN (" ++ ",".intercalate r.1 ++ ")"] }

end ListVars

/-- The columns of a job, in the order in which they are scanned, line by line. -/
def jobColumnLines : List (List String) :=
  [["job_id", "name", "user_id", "team_id", "status", "priority", "gpu_count", "cpu_count"],
    ["memory_gb", "image", "command", "COALESCE(node_id, '')", "retry_count", "max_retries"],
    ["cost_per_hour", "created_at", "started_at", "completed_at"]]

/-- The text of the list of columns. -/
def jobColumns : String := ",\n\t".intercalate (jobColumnLines.map (", ".intercalate ·))

namespace JobFilter

/-- The clauses and arguments of a filter. -/
def vars (f : JobFilter) : ListVars :=
  let b : ListVars := {}
  let b := if f.status ≠ "" then b.equals "status" f.status else b
  let b := if f.statuses.length > 0 then b.among f.statuses else b
  let b := if f.userID ≠ "" then b.equals "user_id" f.userID else b
  if f.teamID ≠ "" then b.equals "team_id" f.teamID else b

/-- The query of `List` for given columns, and its arguments. -/
def queryFor (f : JobFilter) (columns : String) : String × List Arg :=
  let b := f.vars
  let q := "SELECT " ++ columns ++ " FROM jobs"
  let q := if b.clauses.length > 0 then q ++ (" WHERE " ++ " AND ".intercalate b.clauses) else q
  let q := q ++ " ORDER BY created_at DESC"
  if f.limit > 0 then (q ++ s!" LIMIT ${b.i}", b.args ++ [.int f.limit]) else (q, b.args)

/-- The query of `List`, and its arguments. -/
def query (f : JobFilter) : String × List Arg := f.queryFor jobColumns

/-- The job satisfies every field of the filter that is not empty. -/
def Matches (f : JobFilter) (j : Job) : Prop :=
  (f.status ≠ "" → j.status.text = f.status) ∧ (f.statuses ≠ [] → j.status.text ∈ f.statuses) ∧
    (f.userID ≠ "" → j.userID = f.userID) ∧ (f.teamID ≠ "" → j.teamID = f.teamID)

instance (f : JobFilter) (j : Job) : Decidable (f.Matches j) := inferInstanceAs (Decidable (_ ∧ _))

end JobFilter

/-- The table that the query is about.  Of its columns, those that the query looks at. -/
def jobsTable : Schema Job Arg where
  name := "jobs"
  column
    | "status" => some fun j ↦ .text j.status.text
    | "user_id" => some fun j ↦ .text j.userID
    | "team_id" => some fun j ↦ .text j.teamID
    | "created_at" => some fun j ↦ .int j.createdAt
    | _ => none
  le
    | .int a, .int b => a ≤ b
    | .text a, .text b => a ≤ b
    | _, _ => False
  count
    | .int n => if 0 ≤ n then some n.toNat else none
    | .text _ => none

/-! ## What the pieces spell -/

theorem words_equals {column : String} (k : ℕ) (hcolumn : IsWord column) :
    words s!"{column} = ${k}" = (Cond.eq column k).words := by
  have htext : s!"{column} = ${k}" = column ++ (" " ++ ("=" ++ (" " ++ placeholder k))) := by
    have hequals : " = $" = " " ++ ("=" ++ (" " ++ "$")) := rfl
    show column ++ " = $" ++ Nat.repr k = column ++ (" " ++ ("=" ++ (" " ++ ("$" ++ Nat.repr k))))
    rw [hequals, String.append_assoc, String.append_assoc, String.append_assoc, String.append_assoc]
  rw [htext, words_append_space, words_append_space, words_of_isWord hcolumn,
    words_of_isWord (by decide), words_of_isWord (isWord_placeholder k)]
  rfl

theorem words_among (ks : List ℕ) :
    words ("status IN (" ++ ",".intercalate (ks.map placeholder) ++ ")") =
      (Cond.among "status" ks).words := by
  have htext : "status IN (" ++ ",".intercalate (ks.map placeholder) ++ ")" =
      "status" ++ (" " ++ ("IN" ++ (" " ++ placeholderList ks))) := by
    rw [placeholderList]
    simp only [← String.append_assoc]
    rfl
  rw [htext, words_append_space, words_append_space, words_of_isWord (by decide),
    words_of_isWord (by decide), words_of_isWord (isWord_placeholderList ks)]
  rfl

/-- The loop over the statuses numbers them and passes them as arguments. -/
theorem foldl_placeholderStep (statuses ps : List String) (b : ListVars) :
    statuses.foldl ListVars.placeholderStep (ps, b) =
      (ps ++ (List.range' b.i statuses.length).map placeholder,
        { b with args := b.args ++ statuses.map .text, i := b.i + statuses.length }) := by
  induction statuses generalizing ps b with
  | nil => simp
  | cons s statuses ih =>
      rw [List.foldl_cons, ListVars.placeholderStep, ih]
      simp only [List.length_cons, List.range'_succ, List.map_cons, List.append_assoc,
        List.singleton_append, Nat.add_assoc, Nat.add_comm 1]
      rfl

/-! ## What the clauses mean -/

/-- The columns that a filter may restrict. -/
def filterColumns : List String := ["status", "user_id", "team_id"]

theorem isWord_filterColumns : ∀ column ∈ filterColumns, IsWord column := by decide

/-- The clauses so far spell the conditions `conds`, their placeholders are numbered from 1 and have
their arguments, and the conditions together mean `P`, whatever arguments follow. -/
structure Builds (b : ListVars) (conds : List Cond) (P : Job → Prop) : Prop where
  next : b.i = b.args.length + 1
  clauses : b.clauses.map words = conds.map Cond.words
  params : conds.flatMap Cond.params = List.range' 1 b.args.length
  proper : ∀ c ∈ conds, c.Proper
  columns : ∀ c ∈ conds, c.column ∈ filterColumns
  holds : ∀ more j, conds.all (Cond.holds jobsTable (b.args ++ more) j) = true ↔ P j

namespace Builds

variable {b : ListVars} {conds : List Cond} {P p : Job → Prop}

theorem nil : Builds {} [] fun _ ↦ True :=
  ⟨rfl, rfl, rfl, fun _ h ↦ absurd h List.not_mem_nil, fun _ h ↦ absurd h List.not_mem_nil,
    fun _ _ ↦ by simp⟩

/-- One more clause, with as many arguments as it has placeholders. -/
theorem clause (h : Builds b conds P) {c : Cond} {text : String} (vs : List Arg) (hvs : vs ≠ [])
    (htext : words text = c.words) (hcolumn : c.column ∈ filterColumns)
    (hparams : c.params = List.range' (b.args.length + 1) vs.length)
    (hc : ∀ more j, c.holds jobsTable (b.args ++ (vs ++ more)) j = true ↔ p j) :
    Builds ⟨b.clauses ++ [text], b.args ++ vs, b.i + vs.length⟩ (conds ++ [c])
      fun j ↦ P j ∧ p j where
  next := by
    show b.i + vs.length = (b.args ++ vs).length + 1
    rw [h.next, List.length_append]
    omega
  clauses := by
    rw [List.map_append, List.map_append, h.clauses, List.map_singleton, List.map_singleton, htext]
  params := by
    rw [List.flatMap_append, h.params, List.flatMap_singleton, hparams, List.length_append,
      Nat.add_comm b.args.length 1, List.range'_append_1]
  proper d hd := by
    rcases List.mem_append.mp hd with hd | hd
    · exact h.proper d hd
    · rw [List.mem_singleton.mp hd, Cond.Proper, hparams]
      intro hnil
      exact hvs (List.length_eq_zero_iff.mp (List.range'_eq_nil_iff.mp hnil))
  columns d hd := by
    rcases List.mem_append.mp hd with hd | hd
    · exact h.columns d hd
    · rw [List.mem_singleton.mp hd]
      exact hcolumn
  holds more j := by
    rw [List.all_append, Bool.and_eq_true, List.append_assoc, h.holds, List.all_cons, List.all_nil,
      Bool.and_true, hc]

/-- A column has a value. -/
theorem equals (h : Builds b conds P) {read : Job → String} (column value : String)
    (hcolumn : column ∈ filterColumns)
    (hread : jobsTable.column column = some fun j ↦ .text (read j)) :
    Builds (b.equals column value) (conds ++ [.eq column b.i]) fun j ↦ P j ∧ read j = value := by
  refine h.clause [.text value] (List.cons_ne_nil _ _)
    (words_equals b.i (isWord_filterColumns _ hcolumn)) hcolumn (by rw [h.next]; rfl) ?_
  intro more j
  rw [Cond.holds, hread, h.next, List.singleton_append, argument_next]
  simp [eq_comm]

/-- The status is one of several. -/
theorem among (h : Builds b conds P) {statuses : List String} (hne : statuses ≠ []) :
    Builds (b.among statuses) (conds ++ [.among "status" (List.range' b.i statuses.length)])
      fun j ↦ P j ∧ j.status.text ∈ statuses := by
  rw [ListVars.among, foldl_placeholderStep]
  have hlen : (statuses.map Arg.text).length = statuses.length := List.length_map _
  rw [← hlen]
  refine h.clause _ (by simpa using hne) (words_among _) List.mem_cons_self (by rw [h.next]; rfl) ?_
  intro more j
  have hany := exists_argument_iff b.args (statuses.map .text) more (.text j.status.text)
  rw [← h.next] at hany
  simp only [Cond.holds, jobsTable, Option.any_some, List.any_eq_true, decide_eq_true_eq]
  rw [hany]
  simp

/-- A step that is made under a condition. -/
theorem step_if {q : Prop} [Decidable q] {b' : ListVars} (h : ∃ conds, Builds b conds P)
    (hstep : q → ∀ conds, Builds b conds P → ∃ conds', Builds b' conds' fun j ↦ P j ∧ p j) :
    ∃ conds, Builds (if q then b' else b) conds fun j ↦ P j ∧ (q → p j) := by
  obtain ⟨conds, hb⟩ := h
  by_cases hq : q
  · rw [if_pos hq]
    obtain ⟨conds', hb'⟩ := hstep hq conds hb
    exact ⟨conds', { hb' with holds := fun more j ↦ (hb'.holds more j).trans (by simp [hq]) }⟩
  · rw [if_neg hq]
    exact ⟨conds, { hb with holds := fun more j ↦ (hb.holds more j).trans (by simp [hq]) }⟩

end Builds

/-- The clauses of a filter mean the filter. -/
theorem builds_vars (f : JobFilter) : ∃ conds, Builds f.vars conds f.Matches := by
  have h₁ : ∃ conds, Builds (if f.status ≠ "" then ListVars.equals {} "status" f.status else {})
      conds fun j ↦ True ∧ (f.status ≠ "" → j.status.text = f.status) :=
    Builds.step_if ⟨[], .nil⟩ fun _ conds h ↦ ⟨_, h.equals "status" f.status (by decide) rfl⟩
  have h₂ := Builds.step_if h₁ (q := f.statuses.length > 0) fun hne conds h ↦
    ⟨_, h.among (List.length_pos_iff.mp hne)⟩
  have h₃ := Builds.step_if h₂ (q := f.userID ≠ "") fun _ conds h ↦
    ⟨_, h.equals "user_id" f.userID (by decide) rfl⟩
  obtain ⟨conds, hb⟩ := Builds.step_if h₃ (q := f.teamID ≠ "") fun _ conds h ↦
    ⟨_, h.equals "team_id" f.teamID (by decide) rfl⟩
  refine ⟨conds, { hb with holds := fun more j ↦ (hb.holds more j).trans ?_ }⟩
  simp only [JobFilter.Matches, true_and, and_assoc, gt_iff_lt, List.length_pos_iff]

/-! ## The query -/

/-- What the query of a filter says, given the conditions of its clauses. -/
def JobFilter.statement (f : JobFilter) (conds : List Cond) : Select where
  table := "jobs"
  conds := conds
  orderBy := "created_at"
  limit := if f.limit > 0 then some f.vars.i else none

theorem words_select (columns : String) : words ("SELECT " ++ columns ++ " FROM jobs") =
    "SELECT" :: (words columns ++ ["FROM", "jobs"]) := by
  have htext : "SELECT " ++ columns ++ " FROM jobs" =
      "SELECT" ++ (" " ++ (columns ++ (" " ++ "FROM jobs"))) := by
    have hselect : "SELECT " = "SELECT" ++ " " := rfl
    have hfrom : " FROM jobs" = " " ++ "FROM jobs" := rfl
    rw [hselect, hfrom, String.append_assoc, String.append_assoc]
  have hfrom : words "FROM jobs" = ["FROM", "jobs"] := by decide
  rw [htext, words_append_space, words_append_space, words_of_isWord (by decide), hfrom]
  rfl

theorem words_where (q : String) (clauses : List String) :
    words (q ++ (" WHERE " ++ " AND ".intercalate clauses)) =
      words q ++ "WHERE" :: ["AND"].intercalate (clauses.map words) := by
  have hand : " AND " = " " ++ ("AND" ++ " ") := rfl
  have htext : ∀ text, " WHERE " ++ text = " " ++ ("WHERE" ++ (" " ++ text)) := by
    intro text
    simp only [← String.append_assoc]
    rfl
  have hword : words "WHERE" = ["WHERE"] := by decide
  rw [htext, hand, words_append_space, words_append_space, hword, words_intercalate (by decide)]
  rfl

theorem words_orderBy (q : String) : words (q ++ " ORDER BY created_at DESC") =
    words q ++ ["ORDER", "BY", "created_at", "DESC"] := by
  have horder : words "ORDER BY created_at DESC" = ["ORDER", "BY", "created_at", "DESC"] := by
    decide
  rw [← horder, ← words_append_space]
  rfl

theorem words_limit (q : String) (k : ℕ) :
    words (q ++ s!" LIMIT ${k}") = words q ++ ["LIMIT", placeholder k] := by
  have htext : s!" LIMIT ${k}" = " " ++ ("LIMIT" ++ (" " ++ placeholder k)) := by
    have hlimit : " LIMIT $" = " " ++ ("LIMIT" ++ (" " ++ "$")) := rfl
    show " LIMIT $" ++ Nat.repr k = " " ++ ("LIMIT" ++ (" " ++ ("$" ++ Nat.repr k)))
    rw [hlimit, String.append_assoc, String.append_assoc, String.append_assoc]
  have hword : words "LIMIT" = ["LIMIT"] := by decide
  rw [htext, words_append_space, words_append_space, hword, words_of_isWord (isWord_placeholder k)]
  rfl

theorem words_queryFor {f : JobFilter} {conds : List Cond} (h : Builds f.vars conds f.Matches)
    (columns : String) :
    words (f.queryFor columns).1 = (f.statement conds).words (words columns) := by
  have hnil : f.vars.clauses = [] ↔ conds = [] := by
    rw [← List.map_eq_nil_iff (f := words), h.clauses, List.map_eq_nil_iff]
  have hwhere : words (if f.vars.clauses.length > 0 then
        "SELECT " ++ columns ++ " FROM jobs" ++ (" WHERE " ++ " AND ".intercalate f.vars.clauses)
      else "SELECT " ++ columns ++ " FROM jobs") =
      "SELECT" :: (words columns ++ "FROM" :: "jobs" :: Select.whereWords conds) := by
    rw [Select.whereWords]
    by_cases hconds : conds = []
    · rw [if_neg (by simp [hnil.mpr hconds]), if_pos hconds, words_select]
    · rw [if_pos (List.length_pos_iff.mpr fun hc ↦ hconds (hnil.mp hc)), if_neg hconds, words_where,
        words_select, h.clauses]
      simp
  simp only [JobFilter.queryFor, Select.words, JobFilter.statement]
  split
  · rw [words_limit, words_orderBy, hwhere]
    simp [Select.limitWords]
  · rw [words_orderBy, hwhere]
    simp [Select.limitWords]

/-- The list of columns contains no character but those of the names and of what separates
them. -/
theorem notMem_jobColumns {c : Char} (hsep : c ∉ ",\n\t".toList ++ ", ".toList)
    (hnames : ∀ line ∈ jobColumnLines, ∀ name ∈ line, c ∉ name.toList) :
    c ∉ jobColumns.toList := by
  intro hc
  rcases mem_toList_intercalate hc with hc | ⟨text, htext, hc⟩
  · exact hsep (List.mem_append_left _ hc)
  · obtain ⟨line, hline, rfl⟩ := List.mem_map.mp htext
    rcases mem_toList_intercalate hc with hc | ⟨name, hname, hc⟩
    · exact hsep (List.mem_append_right _ hc)
    · exact hnames line hline name hname hc

/-- The placeholders are numbered from 1, and each has its argument. -/
theorem params_statement {f : JobFilter} {conds : List Cond}
    (h : Builds f.vars conds f.Matches) :
    (f.statement conds).params = List.range' 1 f.query.2.length := by
  simp only [Select.params, JobFilter.statement, JobFilter.query, JobFilter.queryFor]
  rw [h.params]
  split
  · rw [Option.toList_some, h.next, List.length_append, List.length_singleton, List.range'_1_concat,
      Nat.add_comm 1]
  · rw [Option.toList_none, List.append_nil]

theorem read_query {f : JobFilter} {conds : List Cond} (h : Builds f.vars conds f.Matches) :
    Select.read f.query.1 = some (f.statement conds) := by
  apply Select.read_of_words (words_queryFor h jobColumns) _ h.proper
  intro hfrom
  have hnot : 'F' ∉ jobColumns.toList := notMem_jobColumns (by decide) (by decide)
  exact hnot (mem_of_mem_words hfrom (by decide))

theorem placeholders_query {f : JobFilter} {conds : List Cond}
    (h : Builds f.vars conds f.Matches) :
    placeholders f.query.1 = List.range' 1 f.query.2.length := by
  have hnames : ∀ column ∈ filterColumns, '$' ∉ column.toList := by decide
  have hnot : '$' ∉ jobColumns.toList := notMem_jobColumns (by decide) (by decide)
  rw [← params_statement h]
  apply Select.placeholders_of_words (words_queryFor h jobColumns)
  · intro w hw hsign
    exact hnot (mem_of_mem_words hw hsign)
  · show '$' ∉ "jobs".toList
    decide
  · show '$' ∉ "created_at".toList
    decide
  · intro c hc
    exact hnames c.column (h.columns c hc)

/-- The arguments of the clauses come first. -/
theorem exists_query_args (f : JobFilter) : ∃ more, f.query.2 = f.vars.args ++ more := by
  simp only [JobFilter.query, JobFilter.queryFor]
  split
  · exact ⟨_, rfl⟩
  · exact ⟨[], (List.append_nil _).symm⟩

/-- Every condition of a filter can be evaluated. -/
theorem bound_query {f : JobFilter} {conds : List Cond} (h : Builds f.vars conds f.Matches) :
    ∀ c ∈ conds, c.Bound jobsTable f.query.2 := by
  have hcolumns : ∀ column ∈ filterColumns, (jobsTable.column column).isSome = true := by decide
  obtain ⟨more, hargs⟩ := exists_query_args f
  intro c hc
  refine ⟨hcolumns c.column (h.columns c hc), ?_⟩
  intro k hk
  have hused : k ∈ List.range' 1 f.vars.args.length :=
    h.params ▸ List.mem_flatMap.mpr ⟨c, hc, hk⟩
  rw [hargs, argument_append more (by rw [List.mem_range'_1] at hused; omega)]
  exact isSome_argument hused

/-- The limit is the last argument. -/
theorem cut_query {f : JobFilter} {conds : List Cond} (h : Builds f.vars conds f.Matches)
    {sorted out : List Job} :
    Select.Cut jobsTable f.query.2 sorted out (f.statement conds).limit ↔
      out = if f.limit > 0 then sorted.take f.limit.toNat else sorted := by
  by_cases hlimit : f.limit > 0
  · have hargs : f.query.2 = f.vars.args ++ .int f.limit :: [] := by
      simp only [JobFilter.query, JobFilter.queryFor, if_pos hlimit]
    have hcount : jobsTable.count (.int f.limit) = some f.limit.toNat := if_pos hlimit.le
    rw [JobFilter.statement, if_pos hlimit, if_pos hlimit, Select.Cut, hargs, h.next, argument_next]
    constructor
    · rintro ⟨v, n, hv, hn, rfl⟩
      cases hv
      cases hcount.symm.trans hn
      rfl
    · intro hout
      exact ⟨_, _, rfl, hcount, hout⟩
  · rw [JobFilter.statement, if_neg hlimit, if_neg hlimit, Select.Cut]

/-- What the statement of a filter returns. -/
theorem returns_statement_iff {f : JobFilter} {conds : List Cond}
    (h : Builds f.vars conds f.Matches) {rows out : List Job} :
    (f.statement conds).Returns jobsTable f.query.2 rows out ↔
      ∃ sorted, sorted.Perm (rows.filter (f.Matches ·)) ∧
        sorted.Pairwise (fun a b ↦ b.createdAt ≤ a.createdAt) ∧
        out = if f.limit > 0 then sorted.take f.limit.toNat else sorted := by
  have hfilter : (rows.filter fun j ↦ conds.all (Cond.holds jobsTable f.query.2 j)) =
      rows.filter (f.Matches ·) := by
    obtain ⟨more, hargs⟩ := exists_query_args f
    apply List.filter_congr
    intro j _
    rw [Bool.eq_iff_iff, hargs, h.holds, decide_eq_true_eq]
  constructor
  · rintro ⟨-, -, key, hkey, sorted, hperm, hsorted, hcut⟩
    cases hkey
    rw [← hfilter]
    exact ⟨sorted, hperm, hsorted, (cut_query h).mp hcut⟩
  · rintro ⟨sorted, hperm, hsorted, hout⟩
    rw [← hfilter] at hperm
    exact ⟨rfl, bound_query h, _, rfl, sorted, hperm, hsorted, (cut_query h).mpr hout⟩

/-- **The job query means its filter.**  For every filter, the query uses the placeholders `$1` to
`$n` once each and in this order, where `n` is the number of its arguments; and the query, read back
and evaluated with these arguments, returns the jobs that satisfy every field of the filter that is
not empty, newest first, and no more than the limit if there is one. -/
theorem list_means_filter (f : JobFilter) :
    placeholders f.query.1 = List.range' 1 f.query.2.length ∧
    ∃ q, Select.read f.query.1 = some q ∧ ∀ rows out,
      q.Returns jobsTable f.query.2 rows out ↔
        ∃ sorted, sorted.Perm (rows.filter (f.Matches ·)) ∧
          sorted.Pairwise (fun a b ↦ b.createdAt ≤ a.createdAt) ∧
          out = if f.limit > 0 then sorted.take f.limit.toNat else sorted := by
  obtain ⟨conds, h⟩ := builds_vars f
  exact ⟨placeholders_query h, f.statement conds, read_query h, fun _ _ ↦ returns_statement_iff h⟩

/-! ## Listing by status -/

theorem Models.JobStatus.text_injective : Function.Injective JobStatus.text := by
  intro a b h
  cases a <;> cases b <;> first | rfl | simp [text] at h

/-- `ListByStatuses`, for at least one status, may return the listing of the store. -/
theorem returns_listByStatuses (s : Store) {ss : List JobStatus} (hss : ss ≠ []) :
    ∃ q, Select.read (JobFilter.query { statuses := ss.map JobStatus.text }).1 = some q ∧
      q.Returns jobsTable (JobFilter.query { statuses := ss.map JobStatus.text }).2 s.jobs.rows
        (s.listByStatuses ss) := by
  obtain ⟨conds, h⟩ := builds_vars { statuses := ss.map JobStatus.text }
  refine ⟨_, read_query h, (returns_statement_iff h).mpr ⟨s.listByStatuses ss, ?_, ?_, rfl⟩⟩
  · have hfilter : (s.jobs.rows.filter fun j ↦ j.status ∈ ss) =
        s.jobs.rows.filter (JobFilter.Matches { statuses := ss.map JobStatus.text } ·) := by
      apply List.filter_congr
      intro j _
      simp [JobFilter.Matches, hss, List.mem_map, JobStatus.text_injective.eq_iff]
    rw [← hfilter]
    exact perm_sliceStable _ _
  · have hranked : RankedBy (fun a b : Job ↦ decide (a.createdAt > b.createdAt))
        fun j ↦ -j.createdAt := by
      intro a b
      rw [decide_eq_true_eq]
      exact Int.neg_lt_neg_iff.symm
    refine (pairwise_sliceStable hranked _).imp ?_
    intro a b hab
    exact Int.neg_le_neg_iff.mp hab

end GpuScheduler
