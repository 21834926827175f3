import GpuScheduler.Lib.Bucket
import GpuScheduler.Models.Job
import Mathlib.Algebra.Order.Field.Rat
import Mathlib.Data.Rat.Cast.Order
import Mathlib.Tactic.Ring

/-!
# The rate limiter

`internal/api/ratelimit.go`: a token bucket per client.  The numbers that the source keeps as
`float64` are rationals here.  A call reads the clock once when it decides, and once before that if
it is the first of its client and makes the bucket.

`TokenBucket.decisions_eq_draws` is the step to the general bucket, with what has flowed in since
time 0 as the reading.
-/

namespace GpuScheduler.Api

open Lib Models

/-- `Duration.Seconds`. -/
def seconds (d : Duration) : ℚ := d / 10 ^ 9

theorem seconds_sub (a b : Time) : seconds (a - b) = seconds a - seconds b := by
  rw [seconds, seconds, seconds, Int.cast_sub, sub_div]

theorem seconds_add (a : Time) (d : Duration) : seconds (a + d) = seconds a + seconds d := by
  rw [seconds, seconds, seconds, Int.cast_add, add_div]

theorem seconds_le {a b : Time} (h : a ≤ b) : seconds a ≤ seconds b :=
  div_le_div_of_nonneg_right (Int.cast_le.mpr h) (by positivity)

/-! ## The code -/

/-- `tokenBucket`. -/
structure TokenBucket where
  tokens : ℚ
  capacity : ℚ
  /-- Tokens refilled per second. -/
  rate : ℚ
  last : Time
deriving DecidableEq, Repr

/-- `newBucket`, when the clock shows `now`. -/
def newBucket (rate capacity : ℚ) (now : Time) : TokenBucket where
  tokens := capacity
  capacity := capacity
  rate := rate
  last := now

/-- `tokenBucket.allow`, when the clock shows `now`. -/
def TokenBucket.allow (b : TokenBucket) (now : Time) : Bool × TokenBucket :=
  let elapsed := seconds (now - b.last)
  let tokens := b.tokens + elapsed * b.rate
  let tokens := if tokens > b.capacity then b.capacity else tokens
  if tokens ≥ 1 then (true, { b with last := now, tokens := tokens - 1 })
  else (false, { b with last := now, tokens := tokens })

/-- `rateLimiter`. -/
structure RateLimiter where
  buckets : String → Option TokenBucket
  rate : ℚ
  capacity : ℚ

/-- `newRateLimiter`. -/
def newRateLimiter (rps burst : Int) : RateLimiter where
  buckets := fun _ ↦ none
  rate := rps
  capacity := burst

/-- A call of `rateLimiter.allow`, with what the clock shows meanwhile. -/
structure Arrival where
  key : String
  /-- The clock when a bucket is made. -/
  made : Time
  /-- The clock when the bucket decides. -/
  now : Time
deriving DecidableEq, Repr

/-- `rateLimiter.allow`. -/
def RateLimiter.allow (rl : RateLimiter) (a : Arrival) : Bool × RateLimiter :=
  let b := (rl.buckets a.key).getD (newBucket rl.rate rl.capacity a.made)
  let r := b.allow a.now
  (r.1, { rl with buckets := Function.update rl.buckets a.key (some r.2) })

/-! ## Sequences of calls -/

/-- What one bucket decides. -/
def TokenBucket.decisions : TokenBucket → List Time → List Bool
  | _, [] => []
  | b, now :: nows => (b.allow now).1 :: decisions (b.allow now).2 nows

/-- What a bucket decides that is made for the first of the calls. -/
def soleDecisions (rate capacity : ℚ) : List Arrival → List Bool
  | [] => []
  | a :: as => (newBucket rate capacity a.made).decisions ((a :: as).map Arrival.now)

/-- The calls of one client. -/
def callsOf (key : String) (as : List Arrival) : List Arrival := as.filter (·.key = key)

namespace RateLimiter

/-- What the limiter decides. -/
def decisions : RateLimiter → List Arrival → List Bool
  | _, [] => []
  | rl, a :: as => (rl.allow a).1 :: decisions (rl.allow a).2 as

/-- What the limiter decides on the calls of one client. -/
def decisionsFor (rl : RateLimiter) (key : String) (as : List Arrival) : List Bool :=
  ((as.zip (rl.decisions as)).filter (·.1.key = key)).map Prod.snd

/-- How many calls of one client are allowed from `t` to `t + d`. -/
def allowedIn (rl : RateLimiter) (key : String) (as : List Arrival) (t : Time) (d : Duration) : ℕ :=
  ((callsOf key as).zip (rl.decisionsFor key as)).countP fun p ↦
    p.2 && (t ≤ p.1.now && p.1.now ≤ t + d)

end RateLimiter

/-- The clock does not go back. -/
structure InOrder (as : List Arrival) : Prop where
  made : ∀ a ∈ as, a.made ≤ a.now
  now : as.Pairwise (·.now ≤ ·.now)

theorem InOrder.callsOf {as : List Arrival} (h : InOrder as) (key : String) :
    InOrder (callsOf key as) where
  made a ha := h.made a (List.mem_of_mem_filter ha)
  now := h.now.filter _

/-! ## One bucket -/

namespace TokenBucket

/-- The bucket, with time measured in tokens. -/
def toBucket (b : TokenBucket) : Bucket ℚ := ⟨b.tokens, seconds b.last * b.rate⟩

variable {b : TokenBucket} {now : Time}

theorem ite_eq_fill :
    (if b.tokens + seconds (now - b.last) * b.rate > b.capacity then b.capacity
      else b.tokens + seconds (now - b.last) * b.rate) =
      b.toBucket.fill b.capacity (seconds now * b.rate) := by
  rw [Bucket.fill, toBucket, seconds_sub, sub_mul]
  split
  · rename_i h
    exact (min_eq_left h.le).symm
  · rename_i h
    exact (min_eq_right (not_lt.mp h)).symm

/-- `allow` is a request that costs one token. -/
theorem allow_eq_draw : b.allow now =
    let r := b.toBucket.draw b.capacity 1 (seconds now * b.rate)
    (r.1, { b with tokens := r.2.level, last := now }) := by
  simp only [allow, ite_eq_fill, Bucket.draw]
  split <;> rfl

theorem decisions_eq_draws (nows : List Time) :
    b.decisions nows = b.toBucket.draws b.capacity 1 (nows.map (seconds · * b.rate)) := by
  induction nows generalizing b with
  | nil => rfl
  | cons now nows ih =>
      have hnext : (b.allow now).2.toBucket =
          (b.toBucket.draw b.capacity 1 (seconds now * b.rate)).2 := by
        rw [allow_eq_draw, Bucket.draw]
        split <;> rfl
      rw [decisions, ih, hnext, allow_eq_draw]
      rfl

end TokenBucket

/-- A bucket made for the first of the calls is full at a reading before them all. -/
theorem soleDecisions_eq_draws {rate : ℚ} (hrate : 0 ≤ rate) (capacity : ℚ) {as : List Arrival}
    (h : InOrder as) : ∃ last,
      soleDecisions rate capacity as =
        Bucket.draws capacity 1 ⟨capacity, last⟩ (as.map fun a ↦ seconds a.now * rate) ∧
      (last :: as.map fun a ↦ seconds a.now * rate).Pairwise (· ≤ ·) := by
  cases as with
  | nil => exact ⟨0, rfl, List.pairwise_singleton _ _⟩
  | cons a as =>
      refine ⟨seconds a.made * rate, ?_, ?_⟩
      · rw [soleDecisions, TokenBucket.decisions_eq_draws, List.map_map]
        rfl
      · have hflow : ∀ {x y : Time}, x ≤ y → seconds x * rate ≤ seconds y * rate :=
          fun hxy ↦ mul_le_mul_of_nonneg_right (seconds_le hxy) hrate
        have hmade := h.made a List.mem_cons_self
        refine List.pairwise_cons.mpr ⟨fun y hy ↦ ?_, List.pairwise_map.mpr (h.now.imp hflow)⟩
        obtain ⟨c, hc, rfl⟩ := List.mem_map.mp hy
        rcases List.mem_cons.mp hc with rfl | hc
        · exact hflow hmade
        · exact hflow (hmade.trans ((List.pairwise_cons.mp h.now).1 c hc))

/-- The bound on the calls of a window, in tokens and in seconds. -/
theorem cost_le_iff {n : ℕ} {rate capacity : ℚ} {now before : Time} :
    (n + 1) • (1 : ℚ) ≤ capacity + (seconds now * rate - seconds before * rate) ↔
      (n : ℚ) + 1 ≤ capacity + rate * seconds (now - before) := by
  rw [nsmul_one, Nat.cast_add_one, ← sub_mul, ← seconds_sub, mul_comm]

/-! ## One client -/

namespace RateLimiter

/-- What the bucket of the client decides, which is made if there is none. -/
def clientDecisions (rl : RateLimiter) (key : String) : List Arrival → List Bool
  | [] => []
  | a :: as => ((rl.buckets key).getD (newBucket rl.rate rl.capacity a.made)).decisions
      ((a :: as).map Arrival.now)

variable {rl : RateLimiter} {key : String} {a : Arrival} {as : List Arrival}

theorem clientDecisions_of_some {b : TokenBucket} (h : rl.buckets key = some b) :
    rl.clientDecisions key as = b.decisions (as.map Arrival.now) := by
  cases as with
  | nil => rfl
  | cons a as => rw [clientDecisions, h, Option.getD_some]

/-- The calls of others leave the client's bucket alone. -/
theorem clientDecisions_allow_of_ne (h : a.key ≠ key) :
    (rl.allow a).2.clientDecisions key as = rl.clientDecisions key as := by
  cases as with
  | nil => rfl
  | cons c as => simp [clientDecisions, allow, Function.update_of_ne h.symm]

/-- The decisions on a client's calls are those of its bucket. -/
theorem decisionsFor_eq : rl.decisionsFor key as = rl.clientDecisions key (callsOf key as) := by
  induction as generalizing rl with
  | nil => rfl
  | cons a as ih =>
      rw [decisionsFor, decisions, List.zip_cons_cons, callsOf]
      by_cases hkey : a.key = key
      · subst hkey
        rw [List.filter_cons_of_pos (by simp), List.filter_cons_of_pos (by simp), List.map_cons]
        change (rl.allow a).1 :: (rl.allow a).2.decisionsFor a.key as = _
        rw [ih, clientDecisions_of_some (Function.update_self ..)]
        rfl
      · rw [List.filter_cons_of_neg (by simpa using hkey),
          List.filter_cons_of_neg (by simpa using hkey)]
        exact ih.trans (clientDecisions_allow_of_ne hkey)

theorem decisionsFor_newRateLimiter {rps burst : Int} :
    (newRateLimiter rps burst).decisionsFor key as =
      soleDecisions rps burst (callsOf key as) := by
  rw [decisionsFor_eq]
  cases callsOf key as <;> rfl

/-- A window of time is a window of readings. -/
theorem allowedIn_le_grantedIn {rate : ℚ} (hrate : 0 ≤ rate) (t : Time) (d : Duration) :
    rl.allowedIn key as t d ≤ grantedIn (seconds t * rate) (seconds (t + d) * rate)
      ((callsOf key as).map fun a ↦ seconds a.now * rate) (rl.decisionsFor key as) := by
  rw [allowedIn, grantedIn, List.zip_map_left, List.countP_map]
  refine List.countP_mono_left fun p _ hp ↦ ?_
  simp only [Bool.and_eq_true, decide_eq_true_eq, Function.comp, Prod.map, id] at hp ⊢
  exact ⟨hp.1, mul_le_mul_of_nonneg_right (seconds_le hp.2.1) hrate,
    mul_le_mul_of_nonneg_right (seconds_le hp.2.2) hrate⟩

end RateLimiter

/-- **Rate limiting is exact and isolated per client.**  For all calls, of any clients and in any
order of theirs, while the clock does not go back: the decisions on a client's calls are those of a
bucket of its own; a call is allowed if and only if, for it and every earlier call of the client,
the calls allowed from that one on and this one are no more than `burst` and what the rate adds in
between; and no window of length `d` allows more than `burst + rps * d` calls of a client. -/
theorem rateLimiter_exact (rps burst : Int) (hrps : 0 ≤ rps) (hburst : 0 ≤ burst)
    (as : List Arrival) (has : InOrder as) (key : String) :
    (newRateLimiter rps burst).decisionsFor key as = soleDecisions rps burst (callsOf key as) ∧
    (∀ j a, (callsOf key as)[j]? = some a →
      (((newRateLimiter rps burst).decisionsFor key as)[j]? = some true ↔
        ∀ i ≤ j, ∀ c, (callsOf key as)[i]? = some c →
          (granted ((newRateLimiter rps burst).decisionsFor key as) i j : ℚ) + 1 ≤
            burst + rps * seconds (a.now - c.now))) ∧
    ∀ t d, 0 ≤ d →
      ((newRateLimiter rps burst).allowedIn key as t d : ℚ) ≤ burst + rps * seconds d := by
  have hrate : (0 : ℚ) ≤ rps := Int.cast_nonneg hrps
  obtain ⟨last, hdraws, hsorted⟩ := soleDecisions_eq_draws hrate burst (has.callsOf key)
  rw [← RateLimiter.decisionsFor_newRateLimiter] at hdraws
  refine ⟨RateLimiter.decisionsFor_newRateLimiter, fun j a hj ↦ ?_, fun t d hd ↦ ?_⟩
  · have hread : ((callsOf key as).map fun a ↦ seconds a.now * rps)[j]? =
        some (seconds a.now * rps) := by rw [List.getElem?_map, hj, Option.map_some]
    rw [hdraws, Bucket.draws_getElem?_of_full (List.pairwise_cons.mp hsorted).1 hread]
    simp only [List.getElem?_map, Option.map_eq_some_iff, forall_exists_index, and_imp,
      forall_apply_eq_imp_iff₂, cost_le_iff]
  · have hwindow : seconds t * rps ≤ seconds (t + d) * rps :=
      mul_le_mul_of_nonneg_right (seconds_le (le_add_of_nonneg_right hd)) hrate
    have hinflow : seconds (t + d) * rps - seconds t * rps = rps * seconds d := by
      rw [seconds_add]
      ring
    have hgranted := Bucket.grantedIn_nsmul_le (b := ⟨(burst : ℚ), last⟩) (Int.cast_nonneg hburst)
      zero_le_one (Int.cast_nonneg hburst) hsorted hwindow
    rw [← hdraws, nsmul_one, hinflow] at hgranted
    exact (Nat.cast_le.mpr (RateLimiter.allowedIn_le_grantedIn hrate t d)).trans hgranted

namespace RateLimit

/-- Three calls of a client with one of another among them, and one call a second later. -/
def calls : List Arrival :=
  [⟨"a", 0, 0⟩, ⟨"a", 1, 1⟩, ⟨"b", 2, 2⟩, ⟨"a", 3, 3⟩, ⟨"a", 10 ^ 9 + 3, 10 ^ 9 + 3⟩]

end RateLimit

/-- With a burst of two, the third call waits for the next token. -/
theorem rateLimiter_exact_small :
    (newRateLimiter 1 2).decisionsFor "a" RateLimit.calls = [true, true, false, true] ∧
      soleDecisions (1 : Int) (2 : Int) (callsOf "a" RateLimit.calls) =
        [true, true, false, true] ∧
      ((newRateLimiter 1 2).allowedIn "a" RateLimit.calls 0 3 : ℚ) ≤
        (2 : Int) + (1 : Int) * seconds 3 := by
  have hinOrder : InOrder RateLimit.calls := ⟨by decide, by decide⟩
  have hdecisions : (newRateLimiter 1 2).decisionsFor "a" RateLimit.calls =
      [true, true, false, true] := by decide +kernel
  obtain ⟨hsole, -, hwindow⟩ :=
    rateLimiter_exact 1 2 (by decide) (by decide) RateLimit.calls hinOrder "a"
  exact ⟨hdecisions, hsole.symm.trans hdecisions, hwindow 0 3 (by decide)⟩

end GpuScheduler.Api
