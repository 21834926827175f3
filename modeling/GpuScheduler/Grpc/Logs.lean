import GpuScheduler.Lib.Pool
import GpuScheduler.Redisx.Lists

/-!
# Logs

`StreamLogs` and `FetchLogs` of `internal/grpc/server.go`.  Agents send the output of their jobs
line by line, and the server keeps the most recent lines of each job in a Redis list: a pipeline of
three commands appends a line, cuts the list down to its last 500 lines, and sets it to expire after
24 hours.  A pipeline is not a transaction.  The commands of several streams may interleave, any of
them may be lost, and the key may expire in between.

Whatever happens, what is served are the most recent of the lines that got through since the list
was started, and they are lines of that job (`fetchLogs_latest`).  If nothing is lost for a day,
they are the end of a merge of all streams for the job, of each of which nothing is missing and
nothing is out of order (`fetchLogs_complete`).
-/

namespace GpuScheduler.Grpc

open Lib Models Redisx

/-! ## The server -/

/-- `LogLine`. -/
structure LogLine where
  jobID : String
  line : String
  timestampUnixMs : Int
deriving DecidableEq, Repr

/-- What `StreamLogs` receives: the lines, and the error that ends the stream unless it is
`io.EOF`. -/
structure LogStream where
  lines : List LogLine
  err : Option String

/-- An operation on the cache. -/
abbrev CacheM (α : Type) : Type := Act Command Command.Ret Unit α

def logKey (jobID : String) : String := "logs:" ++ jobID

theorem logKey_inj {a b : String} : logKey a = logKey b ↔ a = b := by
  refine ⟨fun h ↦ ?_, congrArg logKey⟩
  have hlist := congrArg String.toList h
  simp only [logKey, String.toList_append, List.append_cancel_left_eq] at hlist
  exact String.toList_inj.mp hlist

/-- `time.UnixMilli(ms).UTC().Format(time.RFC3339)` is left open. -/
def formatLog (rfc3339 : Int → String) (l : LogLine) : String :=
  rfc3339 l.timestampUnixMs ++ " " ++ l.line

/-- `24*time.Hour`. -/
def logTTL : Duration := 86400000000000

section Server

variable (redis : Bool) (rfc3339 : Int → String)

/-- The pipeline for one line; that a command failed is only logged. -/
def cacheLine (l : LogLine) : CacheM Unit :=
  if redis then do
    let key := logKey l.jobID
    let _ ← Act.call (.rpush key (formatLog rfc3339 l))
    let _ ← Act.call (.ltrim key (-500) (-1))
    let _ ← Act.call (.expire key logTTL)
    pure ()
  else pure ()

/-- Ingest a stream of log lines from an agent and cache the most recent lines per job. -/
def streamLogs (stream : LogStream) : CacheM (Except String Unit) := do
  stream.lines.forM (cacheLine redis rfc3339)
  match stream.err with
  | none => pure (.ok ())
  | some err => pure (.error err)

/-- The cached recent log lines for a job. -/
def fetchLogs (jobID : String) (limit : Int) : CacheM (Except RedisError (List String)) :=
  if !redis then pure (.ok [])
  else
    let limit := if limit ≤ 0 then 200 else limit
    Act.call (Command.lrange (logKey jobID) (-limit) (-1))

end Server

/-! ## Streams in progress -/

/-- For each key, the lines that were appended since the list was started, with the streams that
they came from. -/
abbrev Pushed : Type := String → List (Nat × String)

/-- The streams in progress over the cache. -/
abbrev Ingest : Type := Pool LogStream Command Command.Ret Unit (Cache × Pushed) Unit

/-- A thread starts as that of its stream. -/
def Receives (rfc3339 : Int → String) (stream : LogStream)
    (p : Prog Command Command.Ret Unit Unit) : Prop :=
  p = (streamLogs true rfc3339 stream).thread ()

/-- Commands are executed on the cache, and what is appended is remembered. -/
def onCache : Pool.Handler LogStream Command Command.Ret (Cache × Pushed) Fortune :=
  Pool.withAux (fun _ _ c x s ↦ Cache.exec c x s) fun i _ c x s pushed ↦ match c with
    | .rpush key value =>
        if x.lost then pushed
        else Function.update pushed key
          (if (s.live x.now key).isSome then pushed key ++ [(i, value)] else [(i, value)])
    | _ => pushed

/-- The lines that are there at the given time. -/
def merged (s : Cache × Pushed) (now : Time) (jobID : String) : List (Nat × String) :=
  if (s.1.live now (logKey jobID)).isSome then s.2 (logKey jobID) else []

/-- What `FetchLogs` answers at the given time. -/
def fetched (s : Cache) (now : Time) (jobID : String) (limit : Int) :
    Except RedisError (List String) :=
  ((fetchLogs true jobID limit ()).run Cache.exec (fun _ ↦ ⟨false, now⟩) s).1.1

/-- The commands of a stream: for one of its lines, and none that reads. -/
def OfStream (rfc3339 : Int → String) (stream : LogStream) : Command → Prop
  | .rpush key value => ∃ l ∈ stream.lines, key = logKey l.jobID ∧ value = formatLog rfc3339 l
  | .ltrim _ start stop => start = -500 ∧ stop = -1
  | .expire _ ttl => ttl = logTTL
  | .lrange _ _ _ => False

/-- A stream issues these only. -/
theorem issues_streamLogs (rfc3339 : Int → String) (stream : LogStream) :
    (streamLogs true rfc3339 stream).Issues (OfStream rfc3339 stream) := by
  have hlines : ∀ ls : List LogLine, (∀ l ∈ ls, l ∈ stream.lines) →
      (ls.forM (cacheLine true rfc3339)).Issues (OfStream rfc3339 stream) := by
    intro ls
    induction ls with
    | nil => exact fun _ ↦ Act.issues_pure
    | cons l ls ih =>
        intro h
        refine Act.issues_bind ?_ fun _ ↦ ih fun l' hl' ↦ h l' (List.mem_cons_of_mem l hl')
        refine Act.issues_bind (Act.issues_call ⟨l, h l List.mem_cons_self, rfl, rfl⟩) fun _ ↦ ?_
        refine Act.issues_bind (Act.issues_call ⟨rfl, rfl⟩) fun _ ↦ ?_
        exact Act.issues_bind (Act.issues_call rfl) fun _ ↦ Act.issues_pure
  refine Act.issues_bind (hlines stream.lines fun _ ↦ id) fun _ ↦ ?_
  cases stream.err with
  | none => exact Act.issues_pure
  | some err => exact Act.issues_pure

/-! ## The most recent lines -/

/-- The values without their streams. -/
def values (l : List (Nat × String)) : List String := l.map Prod.snd

/-- What is cached are the last lines of those that were appended, 500 of them or more. -/
def Recent (s : Cache × Pushed) : Prop := ∀ key e, s.1 key = some e →
  ∃ k, 500 ≤ k ∧ e.values = (values (s.2 key)).rtake k

/-- Every line that was appended is one that its stream has received, under the key of its job. -/
def Received (rfc3339 : Int → String) (streams : List LogStream) (pushed : Pushed) : Prop :=
  ∀ key, ∀ x ∈ pushed key, ∃ stream, streams[x.1]? = some stream ∧ ∃ l ∈ stream.lines,
    key = logKey l.jobID ∧ x.2 = formatLog rfc3339 l

section Step

variable {rfc3339 : Int → String} {stream : LogStream} {streams : List LogStream} {i : Nat}
  {c : Command} {x : Fortune} {s : Cache × Pushed}

/-- What a command of stream `i` can do to the list under a key, and to what was appended to it. -/
inductive Touched (rfc3339 : Int → String) (stream : LogStream) (i : Nat) (now : Time)
    (s : Cache × Pushed) (key : String) : Option Cached → List (Nat × String) → Prop
  | same : Touched rfc3339 stream i now s key (s.1 key) (s.2 key)
  | expires {e : Cached} : s.1.live now key = some e →
      Touched rfc3339 stream i now s key
        (some { e with expiresAt := some (now + logTTL) }) (s.2 key)
  | trimmed {e : Cached} : s.1.live now key = some e →
      Touched rfc3339 stream i now s key (some { e with values := e.values.rtake 500 }) (s.2 key)
  | emptied {e : Cached} : s.1.live now key = some e → e.values = [] →
      Touched rfc3339 stream i now s key none (s.2 key)
  | extended {e : Cached} {v : String} : s.1.live now key = some e →
      OfStream rfc3339 stream (.rpush key v) →
      Touched rfc3339 stream i now s key (some { e with values := e.values ++ [v] })
        (s.2 key ++ [(i, v)])
  | started {v : String} : s.1.live now key = none → OfStream rfc3339 stream (.rpush key v) →
      Touched rfc3339 stream i now s key (some ⟨[v], none⟩) [(i, v)]

/-- Nothing else happens to it. -/
theorem touched_onCache (hc : OfStream rfc3339 stream c) (key : String) :
    Touched rfc3339 stream i x.now s key ((onCache i stream c x s).2.1 key)
      ((onCache i stream c x s).2.2 key) := by
  cases hlost : x.lost with
  | true =>
      have hsame : (onCache i stream c x s).2 = s := by
        cases c <;> simp [onCache, Pool.withAux, Cache.exec, hlost]
      rw [hsame]
      exact .same
  | false =>
      cases c with
      | rpush key' v =>
          simp only [onCache, Pool.withAux, Cache.exec, hlost, Cache.perform, Bool.false_eq_true,
            if_false]
          by_cases hkey : key = key'
          · subst hkey
            rw [Function.update_self, Function.update_self]
            cases hlive : s.1.live x.now key with
            | none => exact .started hlive hc
            | some e => exact .extended hlive hc
          · rw [Function.update_of_ne hkey, Function.update_of_ne hkey]
            exact .same
      | ltrim key' start stop =>
          obtain ⟨rfl, rfl⟩ := hc
          have hslice : ∀ l : List String, slice l (-500) (-1) = l.rtake 500 := fun l ↦
            slice_last l (by decide)
          simp only [onCache, Pool.withAux, Cache.exec, hlost, Cache.perform, hslice,
            Bool.false_eq_true, if_false]
          cases hlive : s.1.live x.now key' with
          | none => exact .same
          | some e =>
              by_cases hkey : key = key'
              · subst hkey
                by_cases hempty : (e.values.rtake 500).isEmpty = true
                · simp only [hempty, if_true, Function.update_self]
                  exact .emptied hlive
                    ((rtake_eq_nil_iff (by decide)).mp (List.isEmpty_iff.mp hempty))
                · simp only [hempty, Bool.false_eq_true, if_false, Function.update_self]
                  exact .trimmed hlive
              · by_cases hempty : (e.values.rtake 500).isEmpty = true
                · simp only [hempty, if_true, Function.update_of_ne hkey]
                  exact .same
                · simp only [hempty, Bool.false_eq_true, if_false, Function.update_of_ne hkey]
                  exact .same
      | expire key' ttl =>
          obtain rfl := hc
          simp only [onCache, Pool.withAux, Cache.exec, hlost, Cache.perform, Bool.false_eq_true,
            if_false]
          cases hlive : s.1.live x.now key' with
          | none => exact .same
          | some e =>
              by_cases hkey : key = key'
              · subst hkey
                simp only [Function.update_self]
                exact .expires hlive
              · simp only [Function.update_of_ne hkey]
                exact .same
      | lrange _ _ _ => exact hc.elim

/-- A command keeps the most recent lines. -/
theorem Recent.call (h : Recent s) (hc : OfStream rfc3339 stream c) :
    Recent (onCache i stream c x s).2 := by
  intro key e he
  have ht : Touched rfc3339 stream i x.now s key _ _ := touched_onCache hc key
  generalize (onCache i stream c x s).2.1 key = o at he ht
  generalize (onCache i stream c x s).2.2 key = l at ht ⊢
  cases ht with
  | same => exact h key e he
  | emptied _ _ => cases he
  | @expires e₀ hlive =>
      obtain rfl := Option.some.inj he
      exact h key e₀ (Cache.eq_of_live hlive)
  | trimmed hlive =>
      obtain rfl := Option.some.inj he
      obtain ⟨k, hk, hvalues⟩ := h key _ (Cache.eq_of_live hlive)
      refine ⟨500, le_rfl, ?_⟩
      rw [hvalues, rtake_rtake, min_eq_left hk]
  | extended hlive _ =>
      obtain rfl := Option.some.inj he
      obtain ⟨k, hk, hvalues⟩ := h key _ (Cache.eq_of_live hlive)
      refine ⟨k + 1, by omega, ?_⟩
      rw [hvalues, values, values, List.map_append, List.map_singleton, List.rtake_concat_succ]
  | started _ _ =>
      obtain rfl := Option.some.inj he
      exact ⟨500, le_rfl, by simp [values, List.rtake]⟩

theorem Received.call (h : Received rfc3339 streams s.2) (hi : streams[i]? = some stream)
    (hc : OfStream rfc3339 stream c) :
    Received rfc3339 streams (onCache i stream c x s).2.2 := by
  intro key y hy
  have ht : Touched rfc3339 stream i x.now s key _ _ := touched_onCache hc key
  generalize (onCache i stream c x s).2.1 key = o at ht
  generalize (onCache i stream c x s).2.2 key = l at hy ht
  cases ht with
  | same | expires _ | trimmed _ | emptied _ _ => exact h key y hy
  | extended _ hv =>
      rcases List.mem_append.mp hy with hy | hy
      · exact h key y hy
      · rw [List.mem_singleton.mp hy]
        exact ⟨stream, hi, hv⟩
  | started _ hv =>
      rw [List.mem_singleton.mp hy]
      exact ⟨stream, hi, hv⟩

theorem Received.append (h : Received rfc3339 streams s.2) (stream : LogStream) :
    Received rfc3339 (streams ++ [stream]) s.2 := by
  intro key y hy
  obtain ⟨st, hst, hl⟩ := h key y hy
  exact ⟨st, List.getElem?_append_left (List.getElem?_eq_some_iff.mp hst).1 ▸ hst, hl⟩

end Step

/-- `FetchLogs` reads the end of the list. -/
theorem fetched_eq_lrange (s : Cache) (now : Time) (jobID : String) (limit : Int) :
    fetched s now jobID limit = .ok (s.perform now
      (.lrange (logKey jobID) (-(if limit ≤ 0 then 200 else limit)) (-1))).1 := rfl

/-- The number of lines that `FetchLogs` asks for. -/
def wanted (limit : Int) : ℕ := (if limit ≤ 0 then 200 else limit).toNat

theorem wanted_le {limit : Int} (h : limit ≤ 500) : wanted limit ≤ 500 := by
  rw [wanted]
  split <;> omega

/-- When the cache holds the most recent lines, `FetchLogs` answers them: as many as are asked for,
or, if that is more than 500, perhaps only the last 500. -/
theorem Recent.fetched_eq {s : Cache × Pushed} (h : Recent s) (now : Time) (jobID : String)
    (limit : Int) : ∃ k, min (wanted limit) 500 ≤ k ∧ k ≤ wanted limit ∧
      fetched s.1 now jobID limit = .ok ((values (merged s now jobID)).rtake k) := by
  have hpos : 0 < wanted limit := by
    rw [wanted]
    split <;> omega
  have hn : (if limit ≤ 0 then 200 else limit) = (wanted limit : Int) := by
    rw [wanted]
    split <;> omega
  rw [fetched_eq_lrange, hn, merged, Cache.perform]
  cases hlive : s.1.live now (logKey jobID) with
  | none => exact ⟨wanted limit, min_le_left _ _, le_rfl, by simp [values]⟩
  | some e =>
      obtain ⟨k, hk, hvalues⟩ := h _ e (Cache.eq_of_live hlive)
      refine ⟨min (wanted limit) k, min_le_min_left _ hk, min_le_left _ _, ?_⟩
      simp only [slice_last e.values hpos, Option.isSome_some, if_true]
      rw [hvalues, rtake_rtake]

/-- Nothing is cached, and nothing was appended. -/
def nothing : Cache × Pushed := (fun _ ↦ none, fun _ ↦ [])

/-- What holds of the cache however the streams interleave. -/
theorem recent_of_reach {rfc3339 : Int → String}
    {admits : Pool.Policy LogStream Command Unit (Cache × Pushed) Fortune} {P : Ingest}
    (h : Pool.Reach onCache admits (Receives rfc3339) ⟨[], nothing⟩ P) :
    Recent P.shared ∧ Received rfc3339 (P.threads.map Prod.fst) P.shared.2 := by
  refine h.inv_of_admitted (I := fun ts s ↦ Recent s ∧ Received rfc3339 ts s.2)
    (K := OfStream rfc3339) ?_ ?_ ?_ ?_
  · exact ⟨nofun, fun _ _ hx ↦ absurd hx List.not_mem_nil⟩
  · rintro stream p rfl
    exact (issues_streamLogs rfc3339 stream).thread ()
  · rintro ts stream s ⟨hrecent, hreceived⟩
    exact ⟨hrecent, hreceived.append stream⟩
  · rintro ts i stream m c x s hi hc - ⟨hrecent, hreceived⟩
    exact ⟨hrecent.call hc, hreceived.call hi hc⟩

/-- **The most recent lines are served.**  However the commands of the streams interleave, whichever
of them are lost and whenever the keys expire: with a limit of at most 500, `FetchLogs` answers the
last lines, in their order, of those that were appended since the list was started, and each of them
was received for that job. -/
theorem fetchLogs_latest {rfc3339 : Int → String} {P : Ingest}
    (h : Pool.Reach onCache (fun _ _ _ _ _ _ ↦ True) (Receives rfc3339) ⟨[], nothing⟩ P)
    (now : Time) (jobID : String) {limit : Int} (hlimit : limit ≤ 500) :
    fetched P.shared.1 now jobID limit = .ok ((values (merged P.shared now jobID)).rtake
      (if limit ≤ 0 then 200 else limit).toNat) ∧
    ∀ x ∈ merged P.shared now jobID, ∃ stream, (P.threads.map Prod.fst)[x.1]? = some stream ∧
      ∃ l ∈ stream.lines, l.jobID = jobID ∧ x.2 = formatLog rfc3339 l := by
  obtain ⟨hrecent, hreceived⟩ := recent_of_reach h
  obtain ⟨k, hlow, hhigh, hfetched⟩ := hrecent.fetched_eq now jobID limit
  obtain rfl : k = wanted limit := by
    have := wanted_le hlimit
    omega
  refine ⟨hfetched, fun x hx ↦ ?_⟩
  rw [merged] at hx
  split at hx
  · obtain ⟨stream, hst, l, hl, hkey, hv⟩ := hreceived _ x hx
    exact ⟨stream, hst, l, hl, (logKey_inj.mp hkey).symm, hv⟩
  · cases hx

namespace Logs

/-- Timestamps are of no interest here. -/
def stamp : Int → String := fun _ ↦ "t"

/-- Two streams, one of them for two jobs. -/
def streams : List LogStream :=
  [⟨[⟨"a", "1", 0⟩, ⟨"a", "2", 0⟩], none⟩, ⟨[⟨"b", "3", 0⟩, ⟨"a", "4", 0⟩], none⟩]

/-- They start one after the other. -/
theorem reach_streams {admits : Pool.Policy LogStream Command Unit (Cache × Pushed) Fortune} :
    Pool.Reach onCache admits (Receives stamp) ⟨[], nothing⟩
      ⟨streams.map fun st ↦ (st, (streamLogs true stamp st).thread ()), nothing⟩ := by
  refine Pool.reach_of_starts (fun x hx ↦ ?_) nothing
  obtain ⟨st, -, rfl⟩ := List.mem_map.mp hx
  exact rfl

/-- All commands are executed, those of the two streams in turn. -/
def ingested : Ingest :=
  Pool.play onCache ([0, 1, 0, 1, 1, 1, 0, 1, 0, 1, 0, 0].map fun i ↦ (i, ⟨false, 1⟩))
    ⟨streams.map fun st ↦ (st, (streamLogs true stamp st).thread ()), nothing⟩

end Logs

/-- The last two lines of the job. -/
theorem fetchLogs_latest_small :
    (fetched Logs.ingested.shared.1 2 "a" 2).toOption = some ["t 4", "t 2"] ∧
      fetched Logs.ingested.shared.1 2 "a" 2 =
        .ok ((values (merged Logs.ingested.shared 2 "a")).rtake 2) :=
  ⟨by decide +kernel, (fetchLogs_latest
    (Logs.reach_streams.trans (Pool.reach_play (by decide +kernel))) 2 "a" (by decide)).1⟩

/-! ## Nothing is missing -/

/-- No command is lost, and all are executed within 24 hours. -/
def Lossless (first : Time) : Pool.Policy LogStream Command Unit (Cache × Pushed) Fortune :=
  fun _ _ _ _ x _ ↦ x.lost = false ∧ first ≤ x.now ∧ x.now < first + logTTL

instance (first : Time) : ∀ i c m o x s, Decidable (Lossless first i c m o x s) :=
  fun _ _ _ _ x _ ↦ inferInstanceAs
    (Decidable (x.lost = false ∧ first ≤ x.now ∧ x.now < first + logTTL))

namespace Merge

variable {rfc3339 : Int → String} {first : Time} {i : Nat} {stream : LogStream} {c : Command}
  {x : Fortune} {s : Cache × Pushed}

/-- No list expires before the 24 hours are over, and none was ever given up. -/
structure Fresh (first : Time) (s : Cache × Pushed) : Prop where
  expiry : ∀ key e, s.1 key = some e → ∀ a ∈ e.expiresAt, first + logTTL ≤ a
  nonempty : ∀ key e, s.1 key = some e → e.values ≠ []
  started : ∀ key, s.1 key = none → s.2 key = []

/-- Every list that was started is still there. -/
theorem Fresh.live_eq (h : Fresh first s) (hx : x.now < first + logTTL) (key : String) :
    s.1.live x.now key = s.1 key := by
  rw [Cache.live]
  cases hkey : s.1 key with
  | none => rfl
  | some e =>
      refine Option.filter_eq_some_iff.mpr ⟨rfl, ?_⟩
      rw [Option.all_eq_true]
      intro a ha
      exact decide_eq_true (hx.trans_le (h.expiry key e hkey a ha))

/-- What stream `i` has appended under a key. -/
def own (i : Nat) (s : Cache × Pushed) (key : String) : List String :=
  values ((s.2 key).filter fun y ↦ y.1 = i)

/-- What is to be appended under a key for the given lines. -/
def due (rfc3339 : Int → String) (lines : List LogLine) (key : String) : List String :=
  (lines.filter fun l ↦ logKey l.jobID = key).map (formatLog rfc3339)

theorem due_append (ls ls' : List LogLine) (key : String) :
    due rfc3339 (ls ++ ls') key = due rfc3339 ls key ++ due rfc3339 ls' key := by
  rw [due, List.filter_append, List.map_append]
  rfl

/-- What a command appends. -/
def appended (key : String) : Command → List String
  | .rpush key' v => if key' = key then [v] else []
  | _ => []

/-- A command keeps the lists, ... -/
theorem Fresh.call (h : Fresh first s) (hc : OfStream rfc3339 stream c)
    (ha : Lossless first i stream () c x s) : Fresh first (onCache i stream c x s).2 := by
  have htouched : ∀ key, Touched rfc3339 stream i x.now s key ((onCache i stream c x s).2.1 key)
      ((onCache i stream c x s).2.2 key) := touched_onCache hc
  have hexpiry : ∀ key e, s.1.live x.now key = some e → ∀ a ∈ e.expiresAt,
      first + logTTL ≤ a := fun key e hlive ↦ h.expiry key e (Cache.eq_of_live hlive)
  refine ⟨fun key e he ↦ ?_, fun key e he ↦ ?_, fun key hnone ↦ ?_⟩
  · have ht := htouched key
    generalize (onCache i stream c x s).2.1 key = o at he ht
    generalize (onCache i stream c x s).2.2 key = l at ht
    cases ht with
    | same => exact h.expiry key e he
    | emptied _ _ => cases he
    | expires _ =>
        obtain rfl := Option.some.inj he
        rintro a ⟨⟩
        exact Int.add_le_add_right ha.2.1 _
    | @trimmed e₀ hlive | @extended e₀ _ hlive _ =>
        obtain rfl := Option.some.inj he
        exact hexpiry key e₀ hlive
    | started _ _ =>
        obtain rfl := Option.some.inj he
        exact nofun
  · have ht := htouched key
    generalize (onCache i stream c x s).2.1 key = o at he ht
    generalize (onCache i stream c x s).2.2 key = l at ht
    cases ht with
    | same => exact h.nonempty key e he
    | emptied _ _ => cases he
    | @expires e₀ hlive =>
        obtain rfl := Option.some.inj he
        exact h.nonempty key e₀ (Cache.eq_of_live hlive)
    | @trimmed e₀ hlive =>
        have hkept : e₀.values.rtake 500 ≠ [] := by
          rw [Ne, rtake_eq_nil_iff (by decide)]
          exact h.nonempty key e₀ (Cache.eq_of_live hlive)
        obtain rfl := Option.some.inj he
        dsimp only
        exact hkept
    | extended _ _ =>
        obtain rfl := Option.some.inj he
        exact List.append_ne_nil_of_right_ne_nil _ (List.cons_ne_nil _ _)
    | started _ _ =>
        obtain rfl := Option.some.inj he
        exact List.cons_ne_nil _ _
  · have ht := htouched key
    generalize (onCache i stream c x s).2.1 key = o at hnone ht
    generalize (onCache i stream c x s).2.2 key = l at ht ⊢
    cases ht with
    | same => exact h.started key hnone
    | @emptied e₀ hlive hempty => exact absurd hempty (h.nonempty key e₀ (Cache.eq_of_live hlive))
    | expires _ | trimmed _ | extended _ _ | started _ _ => cases hnone

/-- ... and appends what it says. -/
theorem Fresh.pushed_call (h : Fresh first s) (ha : Lossless first i stream () c x s)
    (key : String) : (onCache i stream c x s).2.2 key =
      s.2 key ++ (appended key c).map fun v ↦ (i, v) := by
  cases c with
  | rpush key' v =>
      simp only [onCache, Pool.withAux, ha.1, Bool.false_eq_true, if_false, appended]
      by_cases hkey : key = key'
      · subst hkey
        rw [Function.update_self, if_pos rfl, h.live_eq ha.2.2]
        cases hnone : s.1 key with
        | none =>
            rw [h.started key hnone]
            rfl
        | some e => rfl
      · rw [Function.update_of_ne hkey, if_neg fun heq ↦ hkey heq.symm]
        exact (List.append_nil _).symm
  | ltrim _ _ _ | expire _ _ | lrange _ _ _ => exact (List.append_nil _).symm

/-- The setting of stream `i`: the others leave alone what it has appended, and it appends nothing
in their names. -/
def logic (rfc3339 : Int → String) (first : Time) (i : Nat) (stream : LogStream) :
    Logic Command Command.Ret Unit (Cache × Pushed) Fortune where
  exec := onCache i stream
  admits := Lossless first i stream
  inv := Fresh first
  rely s t := own i t = own i s
  guar s t := ∀ j, j ≠ i → own j t = own j s
  held _ s := ∀ key, own i s key <+: due rfc3339 stream.lines key
  rely_refl _ := rfl
  rely_trans h h' := h'.trans h

/-- What the command of a stream appends is appended in its name. -/
theorem own_call (h : Fresh first s) (ha : Lossless first i stream () c x s) (key : String) :
    own i (onCache i stream c x s).2 key = own i s key ++ appended key c ∧
      ∀ j, j ≠ i → own j (onCache i stream c x s).2 key = own j s key := by
  have hmine : ∀ vs : List String, (vs.map fun v ↦ (i, v)).filter (fun y ↦ y.1 = i) =
      vs.map fun v ↦ (i, v) := fun vs ↦ by
    refine List.filter_eq_self.mpr fun y hy ↦ ?_
    obtain ⟨v, -, rfl⟩ := List.mem_map.mp hy
    exact decide_eq_true rfl
  have hothers : ∀ j, j ≠ i → ∀ vs : List String,
      (vs.map fun v ↦ (i, v)).filter (fun y ↦ y.1 = j) = [] := fun j hj vs ↦ by
    refine List.filter_eq_nil_iff.mpr fun y hy ↦ ?_
    obtain ⟨v, -, rfl⟩ := List.mem_map.mp hy
    simpa using hj.symm
  constructor
  · rw [own, h.pushed_call ha, List.filter_append, hmine, values, List.map_append, List.map_map]
    refine congrArg _ ?_
    exact List.map_id _
  · intro j hj
    rw [own, h.pushed_call ha, List.filter_append, hothers j hj, List.append_nil]
    rfl

/-- One command. -/
theorem wp_command (c : Command) (hc : OfStream rfc3339 stream c)
    {Q : c.Ret → Unit → Cache × Pushed → Prop} {mine : String → List String}
    (hmine : own i s = mine) (hheld : ∀ key, mine key <+: due rfc3339 stream.lines key)
    (hq : ∀ r t, own i t = (fun key ↦ mine key ++ appended key c) → Q r () t) :
    (Act.call c : CacheM c.Ret).wp (logic rfc3339 first i stream) Q () s := by
  refine Act.wp_call fun t hst ht ↦ ?_
  have htmine : own i t = mine := hst.trans hmine
  refine ⟨fun key ↦ ?_, fun x hx ↦ ?_⟩
  · rw [htmine]
    exact hheld key
  · have hcall : ∀ key, own i (onCache i stream c x t).2 key = own i t key ++ appended key c ∧
        ∀ j, j ≠ i → own j (onCache i stream c x t).2 key = own j t key := own_call ht hx
    refine ⟨ht.call hc hx, fun j hj ↦ funext fun key ↦ (hcall key).2 j hj, fun u hu _ ↦ ?_⟩
    refine hq _ u (hu.trans (funext fun key ↦ ?_))
    rw [← htmine]
    exact (hcall key).1

/-- The pipeline for one line. -/
theorem wp_cacheLine {l : LogLine} {done rest : List LogLine}
    (hlines : done ++ l :: rest = stream.lines) (hmine : own i s = due rfc3339 done) :
    (cacheLine true rfc3339 l).wp (logic rfc3339 first i stream)
      (fun _ _ t ↦ own i t = due rfc3339 (done ++ [l])) () s := by
  have hl : l ∈ stream.lines := hlines ▸ List.mem_append_right done List.mem_cons_self
  have hbefore : ∀ key, due rfc3339 done key <+: due rfc3339 stream.lines key := fun key ↦ by
    rw [← hlines, due_append]
    exact List.prefix_append _ _
  have hafter : ∀ key, due rfc3339 (done ++ [l]) key <+: due rfc3339 stream.lines key :=
    fun key ↦ by
      rw [← hlines, List.append_cons done l rest, due_append (done ++ [l]) rest]
      exact List.prefix_append _ _
  refine Act.wp_bind.mpr (wp_command (.rpush _ _) ⟨l, hl, rfl, rfl⟩ hmine hbefore fun _ t ht ↦ ?_)
  have hpushed : own i t = due rfc3339 (done ++ [l]) := by
    rw [ht]
    funext key
    rw [due_append]
    refine congrArg _ ?_
    by_cases hkey : logKey l.jobID = key
    · simp [appended, due, hkey]
    · simp [appended, due, hkey]
  have hkept : (fun key ↦ due rfc3339 (done ++ [l]) key ++ []) = due rfc3339 (done ++ [l]) :=
    funext fun key ↦ List.append_nil _
  refine Act.wp_bind.mpr (wp_command (.ltrim _ _ _) ⟨rfl, rfl⟩ hpushed hafter fun _ u hu ↦ ?_)
  refine Act.wp_bind.mpr (wp_command (.expire _ _) rfl (hu.trans hkept) hafter fun _ v hv ↦ ?_)
  exact Act.wp_pure.mpr fun w hw _ ↦ hw.trans (hv.trans hkept)

/-- A stream appends all its lines, in their order. -/
theorem wp_thread (hmine : own i s = fun _ ↦ []) :
    ((streamLogs true rfc3339 stream).thread ()).wp (logic rfc3339 first i stream)
      (fun _ t ↦ own i t = due rfc3339 stream.lines) s := by
  refine Act.wp_thread (fun s t hs hst _ ↦ hst.trans hs) (Act.wp_bind.mpr ?_)
  refine (Act.wp_forM (I := fun rest _ t ↦ ∃ done, done ++ rest = stream.lines ∧
    own i t = due rfc3339 done) ⟨[], rfl, hmine⟩ ?_ ?_).mono ?_
  · rintro _ s t ⟨done, hdone, hs⟩ hst -
    exact ⟨done, hdone, hst.trans hs⟩
  · rintro l rest _ s ⟨done, hdone, hs⟩
    refine (wp_cacheLine hdone hs).mono fun _ _ t _ ht ↦ ⟨done ++ [l], ?_, ht⟩
    rw [← hdone, List.append_assoc]
    rfl
  · rintro _ _ t - ⟨done, hdone, ht⟩
    rw [List.append_nil] at hdone
    subst hdone
    cases stream.err with
    | none => exact Act.wp_pure.mpr fun u hu _ ↦ hu.trans ht
    | some err => exact Act.wp_pure.mpr fun u hu _ ↦ hu.trans ht

/-- The streams do not get in each other's way. -/
def outline (rfc3339 : Int → String) (first : Time) :
    Pool.Outline onCache (Lossless first) Unit where
  logic := logic rfc3339 first
  post i stream _ s := own i s = due rfc3339 stream.lines
  inv := Fresh first
  exec_eq _ _ := rfl
  admits_eq _ _ := rfl
  inv_eq _ _ := rfl
  guar_rely _ _ j _ _ _ hne _ _ h := h j hne.symm

end Merge

/-- **Nothing is missing and nothing is out of order.**  If no command is lost and all are executed
within 24 hours, then however the streams interleave: what `FetchLogs` answers is the end of a merge
of the streams, as long as was asked for, or if that is more than 500 lines, at least 500 lines
long.  Of a stream that is over the merge contains all lines for the job, and of one in progress the
first ones, in the order in which they were received. -/
theorem fetchLogs_complete {rfc3339 : Int → String} {first : Time} {P : Ingest}
    (h : Pool.Reach onCache (Lossless first) (Receives rfc3339) ⟨[], nothing⟩ P) {now : Time}
    (hnow : now < first + logTTL) (jobID : String) (limit : Int) :
    ∃ (merge : List (Nat × String)) (k : ℕ),
      fetched P.shared.1 now jobID limit = .ok ((values merge).rtake k) ∧
      min (wanted limit) 500 ≤ k ∧ k ≤ wanted limit ∧
      (∀ x ∈ merge, x.1 < P.threads.length) ∧
      ∀ i stream p, P.threads[i]? = some (stream, p) →
        values (merge.filter fun y ↦ y.1 = i) <+:
          (stream.lines.filter fun l ↦ l.jobID = jobID).map (formatLog rfc3339) ∧
        (p = .ret () → values (merge.filter fun y ↦ y.1 = i) =
          (stream.lines.filter fun l ↦ l.jobID = jobID).map (formatLog rfc3339)) := by
  obtain ⟨hrecent, -⟩ := recent_of_reach h
  -- no stream has appended anything before it starts
  have hinit : (Merge.outline rfc3339 first).Holds ⟨[], nothing⟩ :=
    ⟨⟨nofun, nofun, fun _ _ ↦ rfl⟩, fun i c p hi ↦ by simp at hi⟩
  obtain ⟨hholds, hlater⟩ := hinit.reach_fresh (F := fun j s ↦ Merge.own j s = fun _ ↦ [])
    (fun i stream p s hp _ hF ↦ hp ▸ Merge.wp_thread hF)
    (fun _ _ j _ _ hne hguar hF ↦ (hguar j hne.symm).trans hF) (fun _ _ ↦ rfl) h
  have hmerged : merged P.shared now jobID = P.shared.2 (logKey jobID) := by
    rw [merged, hholds.1.live_eq (x := ⟨false, now⟩) hnow]
    cases hkey : P.shared.1 (logKey jobID) with
    | none => exact (hholds.1.started _ hkey).symm
    | some e => rfl
  have hdue : ∀ stream : LogStream, Merge.due rfc3339 stream.lines (logKey jobID) =
      (stream.lines.filter fun l ↦ l.jobID = jobID).map (formatLog rfc3339) := fun stream ↦ by
    simp only [Merge.due, logKey_inj]
  obtain ⟨k, hlow, hhigh, hfetched⟩ := hrecent.fetched_eq now jobID limit
  rw [hmerged] at hfetched
  refine ⟨P.shared.2 (logKey jobID), k, hfetched, hlow, hhigh, ?_, ?_⟩
  · intro x hx
    by_contra hlen
    have hnone := congrFun (hlater x.1 (Nat.not_lt.mp hlen)) (logKey jobID)
    rw [Merge.own, values, List.map_eq_nil_iff, List.filter_eq_nil_iff] at hnone
    exact hnone x hx (decide_eq_true rfl)
  · intro i stream p hi
    rw [← hdue stream]
    cases p with
    | ret u =>
        have hpost := congrFun (hholds.post hi) (logKey jobID)
        exact ⟨hpost ▸ List.prefix_rfl, fun _ ↦ hpost⟩
    | call m c k => exact ⟨hholds.held hi (logKey jobID), nofun⟩

/-- The three lines of the job, of which the second stream sent the middle one. -/
theorem fetchLogs_complete_small :
    (fetched Logs.ingested.shared.1 2 "a" 1000).toOption = some ["t 1", "t 4", "t 2"] ∧
      ∃ (merge : List (Nat × String)) (k : ℕ), 500 ≤ k ∧
        fetched Logs.ingested.shared.1 2 "a" 1000 = .ok ((values merge).rtake k) ∧
        ∀ i stream p, Logs.ingested.threads[i]? = some (stream, p) → p = .ret () →
          values (merge.filter fun y ↦ y.1 = i) =
            (stream.lines.filter fun l ↦ l.jobID = "a").map (formatLog Logs.stamp) := by
  have hreach : Pool.Reach onCache (Lossless 0) (Receives Logs.stamp) ⟨[], nothing⟩
      Logs.ingested := Logs.reach_streams.trans (Pool.reach_play (by decide +kernel))
  refine ⟨by decide +kernel, ?_⟩
  obtain ⟨merge, k, hmerge, hk, -, -, hall⟩ :=
    fetchLogs_complete hreach (by decide : (2 : Int) < _) "a" 1000
  exact ⟨merge, k, hk, hmerge, fun i stream p hi ↦ (hall i stream p hi).2⟩

end GpuScheduler.Grpc
