import GpuScheduler.Models.Job
import Mathlib.Data.List.DropRight
import Mathlib.Logic.Function.Basic

/-!
# Lists in Redis

The commands that the control plane uses for lists.  Redis executes each of them as a whole.  A key
whose time has come is gone, whether or not Redis has got around to removing it, and appending to it
starts a list anew that does not expire.

Indices may count from the end of the list, and are cut off at both ends of it.
-/

namespace GpuScheduler.Redisx

open Models

/-- The part of a list between two indices, both included; negative ones count from the end. -/
def slice {α : Type} (l : List α) (start stop : Int) : List α :=
  let start := if start < 0 then start + l.length else start
  let stop := if stop < 0 then stop + l.length else stop
  let start := if start < 0 then 0 else start
  if start > stop || start ≥ l.length then []
  else (l.drop start.toNat).take (stop - start + 1).toNat

/-- Counted from the end up to the last element, it is the last part of the list. -/
theorem slice_last {α : Type} (l : List α) {n : ℕ} (hn : 0 < n) :
    slice l (-n) (-1) = l.rtake n := by
  have hneg : (-(n : Int)) < 0 := by omega
  have hstop : (-1 : Int) < 0 := by decide
  simp only [slice, if_pos hneg, if_pos hstop, Bool.or_eq_true, decide_eq_true_eq, List.rtake]
  by_cases hl : n ≤ l.length
  · have hstart : ¬ (-(n : Int) + l.length) < 0 := by omega
    have hin : ¬ ((-(n : Int) + l.length) > -1 + l.length ∨
        (-(n : Int) + l.length) ≥ l.length) := by
      omega
    have hdrop : (-(n : Int) + l.length).toNat = l.length - n := by omega
    rw [if_neg hstart, if_neg hin, hdrop]
    refine List.take_of_length_le ?_
    rw [List.length_drop]
    omega
  · have hstart : (-(n : Int) + l.length) < 0 := by omega
    have hdrop : l.length - n = 0 := by omega
    rw [if_pos hstart, hdrop, List.drop_zero]
    split
    · rename_i hempty
      have hlen : l.length = 0 := by omega
      exact (List.length_eq_zero_iff.mp hlen).symm
    · refine List.take_of_length_le ?_
      rw [Int.toNat_zero, List.drop_zero]
      omega

/-! ## Last parts -/

section Last

variable {α : Type} {l : List α} {k n : ℕ}

/-- The last part of a last part. -/
theorem rtake_rtake : (l.rtake k).rtake n = l.rtake (min n k) := by
  rw [List.rtake_eq_reverse_take_reverse, List.rtake_eq_reverse_take_reverse,
    List.rtake_eq_reverse_take_reverse, List.reverse_reverse, List.take_take]

theorem rtake_eq_nil_iff (hn : 0 < n) : l.rtake n = [] ↔ l = [] := by
  rw [List.rtake, List.drop_eq_nil_iff, ← List.length_eq_zero_iff]
  omega

end Last

/-! ## Commands -/

/-- A list and the time at which its key expires, if it does. -/
structure Cached where
  values : List String
  expiresAt : Option Time
deriving DecidableEq, Repr

/-- The lists, by their keys. -/
abbrev Cache : Type := String → Option Cached

/-- What is there under the key, at the given time. -/
def Cache.live (s : Cache) (now : Time) (key : String) : Option Cached :=
  (s key).filter fun e ↦ e.expiresAt.all fun t ↦ now < t

inductive Command
  | rpush (key value : String)
  | ltrim (key : String) (start stop : Int)
  /-- With a positive time to live. -/
  | expire (key : String) (ttl : Duration)
  | lrange (key : String) (start stop : Int)
deriving DecidableEq, Repr

/-- What a command returns; the numbers that the writing commands return are of no interest to
anyone. -/
abbrev Command.Val : Command → Type
  | lrange _ _ _ => List String
  | _ => Unit

inductive RedisError
  | failure
deriving DecidableEq, Repr

abbrev Command.Ret (c : Command) : Type := Except RedisError c.Val

/-- What is decided about a command. -/
structure Fortune where
  /-- Whether the command is lost on its way. -/
  lost : Bool
  /-- The clock of Redis. -/
  now : Time
deriving DecidableEq, Repr

/-- The execution of a command. -/
def Cache.perform (s : Cache) (now : Time) : (c : Command) → c.Val × Cache
  | .rpush key value => ((), Function.update s key (some (match s.live now key with
    | some e => { e with values := e.values ++ [value] }
    | none => ⟨[value], none⟩)))
  | .ltrim key start stop => match s.live now key with
    | some e =>
        if (slice e.values start stop).isEmpty then ((), Function.update s key none)
        else ((), Function.update s key (some { e with values := slice e.values start stop }))
    | none => ((), s)
  | .expire key ttl => match s.live now key with
    | some e => ((), Function.update s key (some { e with expiresAt := some (now + ttl) }))
    | none => ((), s)
  | .lrange key start stop => match s.live now key with
    | some e => (slice e.values start stop, s)
    | none => ([], s)

/-- A command that is lost does nothing, and is reported as failed. -/
def Cache.exec (c : Command) (x : Fortune) (s : Cache) : c.Ret × Cache :=
  if x.lost then (.error .failure, s) else (.ok (s.perform x.now c).1, (s.perform x.now c).2)

/-- What is there was put there. -/
theorem Cache.eq_of_live {s : Cache} {now : Time} {key : String} {e : Cached}
    (h : s.live now key = some e) : s key = some e := (Option.filter_eq_some_iff.mp h).1

end GpuScheduler.Redisx
