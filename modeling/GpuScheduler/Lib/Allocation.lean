import GpuScheduler.Lib.Table
import Mathlib.Data.Finset.Card
import Mathlib.Logic.Relation

/-!
# Allocation

Tasks ask for amounts of several resources, and hosts have capacities.  A task waits, is on a host,
or is over.  A host that is open takes a waiting task when its capacity covers the requests of its
tasks together with the new one: there is no other record of what is left on a host.

A round puts tasks on hosts until no open host takes another one, and then waits for all of them to
be over.  As long as every waiting task would fit on some open host if that were empty, a round that
begins with empty hosts puts at least one task on a host (`Round.backlog_lt`), so that as many
rounds as there are waiting tasks are enough for all of them.
-/

namespace GpuScheduler.Lib

/-- Where a task is. -/
inductive Standing (ν : Type*)
  | waiting
  | on (host : ν)
  | over
deriving DecidableEq

structure Task (κ ν ρ α : Type*) where
  id : κ
  request : ρ → α
  standing : Standing ν

structure Host (ν ρ α : Type*) where
  id : ν
  capacity : ρ → α
  isOpen : Bool

/-- The tasks and the hosts that there are. -/
structure Allocation (κ ν ρ α : Type*) where
  tasks : Table (Task.id : Task κ ν ρ α → κ)
  hosts : Table (Host.id : Host ν ρ α → ν)

variable {κ ν ρ α : Type*}

/-- Let the task be somewhere else. -/
def Task.move (t : Task κ ν ρ α) (x : Standing ν) : Task κ ν ρ α := { t with standing := x }

theorem Task.id_move (t : Task κ ν ρ α) (x : Standing ν) : (t.move x).id = t.id := rfl

/-- Open or close the host. -/
def Host.turn (h : Host ν ρ α) (isOpen : Bool) : Host ν ρ α := { h with isOpen }

theorem Host.id_turn (h : Host ν ρ α) (isOpen : Bool) : (h.turn isOpen).id = h.id := rfl

namespace Allocation

def empty : Allocation κ ν ρ α := ⟨.empty, .empty⟩

/-- No task is on a host. -/
def Idle (a : Allocation κ ν ρ α) : Prop := ∀ t ∈ a.tasks.rows, ∀ n, t.standing ≠ .on n

section Moves

variable [DecidableEq κ] {a b c : Allocation κ ν ρ α}

def move (a : Allocation κ ν ρ α) (k : κ) (x : Standing ν) : Allocation κ ν ρ α :=
  { a with tasks := a.tasks.modify k (·.move x) (·.id_move x) }

theorem mem_move {k : κ} {x : Standing ν} {t : Task κ ν ρ α} : t ∈ (a.move k x).tasks.rows ↔
    (∃ t₀ ∈ a.tasks.rows, t₀.id = k ∧ t = t₀.move x) ∨ (t ∈ a.tasks.rows ∧ t.id ≠ k) := by
  have hrows : (a.move k x).tasks = a.tasks.modify k (·.move x) (·.id_move x) := rfl
  rw [hrows, Table.mem_modify]

/-- A task that is on a host is over. -/
inductive Finishes (a : Allocation κ ν ρ α) : Allocation κ ν ρ α → Prop
  | mk {t : Task κ ν ρ α} {n : ν} : t ∈ a.tasks.rows → t.standing = .on n →
      Finishes a (a.move t.id .over)

/-- Every waiting task would fit on an open host that is empty. -/
def Feasible [LE α] (a : Allocation κ ν ρ α) : Prop :=
  ∀ t ∈ a.tasks.rows, t.standing = .waiting →
    ∃ h ∈ a.hosts.rows, h.isOpen = true ∧ ∀ d, t.request d ≤ h.capacity d

theorem Feasible.move [LE α] (h : a.Feasible) (k : κ) {x : Standing ν} (hx : x ≠ .waiting) :
    (a.move k x).Feasible := by
  intro t ht hw
  rcases mem_move.mp ht with ⟨t₀, -, -, rfl⟩ | ⟨ht, -⟩
  · exact absurd hw hx
  · exact h t ht hw

variable [DecidableEq ν]

/-- The waiting tasks. -/
def backlog (a : Allocation κ ν ρ α) : Finset κ := a.tasks.keysWhere fun t ↦ t.standing = .waiting

theorem mem_backlog {t : Task κ ν ρ α} (ht : t ∈ a.tasks.rows) :
    t.id ∈ a.backlog ↔ t.standing = .waiting := by
  rw [backlog, Table.mem_keysWhere, Table.find?_key ht]
  simp

/-- A task that is put anywhere does not wait any more. -/
theorem backlog_move (k : κ) {x : Standing ν} (hx : x ≠ .waiting) :
    (a.move k x).backlog = a.backlog.erase k := by
  ext k'
  simp only [backlog, move, Finset.mem_erase, Table.mem_keysWhere, Table.find?_modify,
    decide_eq_true_eq]
  by_cases hk : k' = k
  · rw [if_pos hk]
    constructor
    · rintro ⟨t, ht, hw⟩
      obtain ⟨t₀, -, rfl⟩ := Option.map_eq_some_iff.mp ht
      exact absurd hw hx
    · rintro ⟨hne, -⟩
      exact absurd hk hne
  · rw [if_neg hk]
    exact ⟨fun h ↦ ⟨hk, h⟩, fun h ↦ h.2⟩

theorem backlog_finishes [LE α] (h : Relation.ReflTransGen Finishes b c) (hf : b.Feasible) :
    c.Feasible ∧ c.backlog.card ≤ b.backlog.card := by
  induction h with
  | refl => exact ⟨hf, le_rfl⟩
  | tail _ hfinish ih =>
      obtain ⟨ht, -⟩ := hfinish
      refine ⟨ih.1.move _ nofun, ?_⟩
      rw [backlog_move (x := .over) _ nofun]
      exact (Finset.card_erase_le).trans ih.2

end Moves

variable [DecidableEq κ] [DecidableEq ν] [AddCommMonoid α] [LE α] {a b c : Allocation κ ν ρ α}

/-- What the tasks on a host take from it. -/
def load (a : Allocation κ ν ρ α) (n : ν) (d : ρ) : α :=
  a.tasks.sum fun t ↦ if t.standing = .on n then t.request d else 0

/-- The host takes the task. -/
structure Takes (a : Allocation κ ν ρ α) (h : Host ν ρ α) (t : Task κ ν ρ α) : Prop where
  isOpen : h.isOpen = true
  room : ∀ d, a.load h.id d + t.request d ≤ h.capacity d

/-- A waiting task is put on a host. -/
inductive Places (a : Allocation κ ν ρ α) : Allocation κ ν ρ α → Prop
  | mk {t : Task κ ν ρ α} {h : Host ν ρ α} : t ∈ a.tasks.rows → t.standing = .waiting →
      h ∈ a.hosts.rows → a.Takes h t → Places a (a.move t.id (.on h.id))

/-- Anything that may happen. -/
inductive Step (a : Allocation κ ν ρ α) : Allocation κ ν ρ α → Prop
  | join (h : Host ν ρ α) (hnew : a.hosts.find? h.id = none) :
      Step a { a with hosts := a.hosts.insert h hnew }
  | turn (n : ν) (isOpen : Bool) :
      Step a { a with hosts := a.hosts.modify n (·.turn isOpen) (·.id_turn isOpen) }
  | submit (t : Task κ ν ρ α) (hnew : a.tasks.find? t.id = none) : t.standing = .waiting →
      Step a { a with tasks := a.tasks.insert t hnew }
  | withdraw {t : Task κ ν ρ α} : t ∈ a.tasks.rows → t.standing = .waiting →
      Step a (a.move t.id .over)
  | place {b : Allocation κ ν ρ α} : Places a b → Step a b
  | finish {b : Allocation κ ν ρ α} : Finishes a b → Step a b

/-! ## Rounds -/

/-- No host takes a waiting task. -/
def Saturated (a : Allocation κ ν ρ α) : Prop := ∀ t ∈ a.tasks.rows, t.standing = .waiting →
  ∀ h ∈ a.hosts.rows, ¬ a.Takes h t

structure Round (a c : Allocation κ ν ρ α) : Prop where
  split : ∃ b, Relation.ReflTransGen Places a b ∧ b.Saturated ∧ Relation.ReflTransGen Finishes b c
  idle : c.Idle

omit [DecidableEq κ] [LE α] in
theorem load_of_idle (h : a.Idle) (n : ν) (d : ρ) : a.load n d = 0 := by
  refine List.sum_eq_zero fun x hx ↦ ?_
  obtain ⟨t, ht, rfl⟩ := List.mem_map.mp hx
  exact if_neg (h t ht n)

/-- Placements leave the waiting tasks feasible, and there are fewer of them, or there was no
placement. -/
theorem backlog_places (h : Relation.ReflTransGen Places a b) (hf : a.Feasible) :
    b.Feasible ∧ (b = a ∨ b.backlog.card < a.backlog.card) := by
  induction h with
  | refl => exact ⟨hf, .inl rfl⟩
  | tail _ hplace ih =>
      obtain ⟨hfeasible, hless⟩ := ih
      obtain @⟨t, n, ht, hw, -, -⟩ := hplace
      refine ⟨hfeasible.move _ nofun, .inr ?_⟩
      rw [backlog_move (x := .on n.id) _ nofun]
      have hlt := Finset.card_erase_lt_of_mem ((mem_backlog ht).mpr hw)
      rcases hless with rfl | hless
      · exact hlt
      · exact hlt.trans hless

namespace Round

theorem feasible (h : Round a c) (hf : a.Feasible) : c.Feasible := by
  obtain ⟨b, hplaces, -, hfinishes⟩ := h.split
  exact (backlog_finishes hfinishes (backlog_places hplaces hf).1).1

theorem backlog_le (h : Round a c) (hf : a.Feasible) : c.backlog.card ≤ a.backlog.card := by
  obtain ⟨b, hplaces, -, hfinishes⟩ := h.split
  obtain ⟨hfeasible, hless⟩ := backlog_places hplaces hf
  refine (backlog_finishes hfinishes hfeasible).2.trans ?_
  rcases hless with rfl | hless
  · exact le_rfl
  · exact hless.le

/-- **A round that begins with empty hosts makes the backlog shorter.** -/
theorem backlog_lt (h : Round a c) (hf : a.Feasible) (hidle : a.Idle)
    (hsome : a.backlog.Nonempty) : c.backlog.card < a.backlog.card := by
  obtain ⟨b, hplaces, hsat, hfinishes⟩ := h.split
  obtain ⟨hfeasible, hless⟩ := backlog_places hplaces hf
  refine (backlog_finishes hfinishes hfeasible).2.trans_lt (hless.resolve_left ?_)
  rintro rfl
  -- nothing was put on a host, although one is empty that fits
  obtain ⟨k, hk⟩ := hsome
  obtain ⟨t, ht, hw⟩ := Table.mem_keysWhere.mp hk
  rw [decide_eq_true_eq] at hw
  obtain ⟨n, hn, hopen, hle⟩ := hf t (Table.mem_of_find? ht) hw
  refine hsat t (Table.mem_of_find? ht) hw n hn ⟨hopen, fun d ↦ ?_⟩
  rw [load_of_idle hidle, zero_add]
  exact hle d

end Round

end Allocation

end GpuScheduler.Lib
