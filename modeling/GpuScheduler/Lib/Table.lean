import Mathlib.Algebra.BigOperators.Group.List.Basic
import Mathlib.Algebra.Order.BigOperators.Group.List
import Mathlib.Data.Finset.Dedup
import Mathlib.Data.List.Nodup
import Mathlib.Tactic.Abel

/-!
# Keyed tables

A table is a list of rows in which no two rows share a key: the content of an SQL table with a
primary key.  The uniqueness is a field of the structure, so a statement that would duplicate a
key cannot be written down.

Three kinds of statement act on a table: rewriting every row (`mapRows`), rewriting the row with
a given key (`modify`), and inserting a row whose key is new (`insert`).  Rewriting may not touch
the key.  What a table *means* is given by `find?`, and aggregates over it by `sum`; the lemmas
say how each statement acts on both, so that no later proof has to look at the list of rows.
A view keeps the keys and shows something else in the place of each row; statements on the table
are seen as statements on the view.
-/

namespace GpuScheduler.Lib

universe u v w

/-- A list of rows with pairwise distinct keys. -/
structure Table {κ : Type u} {ρ : Type v} (key : ρ → κ) where
  /-- The rows, in the order in which they were inserted. -/
  rows : List ρ
  /-- The key is a primary key. -/
  nodup : (rows.map key).Nodup

namespace Table

variable {κ : Type u} {ρ : Type v} {key : ρ → κ}

@[ext] theorem ext {t u : Table key} (h : t.rows = u.rows) : t = u := by
  cases t; cases u; cases h; rfl

/-- The table without rows. -/
def empty : Table key := ⟨[], List.nodup_nil⟩

/-- `UPDATE t SET ...` without a `WHERE`: every row is rewritten, its key kept. -/
def mapRows (t : Table key) (f : ρ → ρ) (hf : ∀ r, key (f r) = key r) : Table key where
  rows := t.rows.map f
  nodup := by
    have h : (t.rows.map f).map key = t.rows.map key := by
      rw [List.map_map]
      exact List.map_congr_left fun r _ ↦ hf r
    rw [h]
    exact t.nodup

@[simp] theorem rows_mapRows (t : Table key) (f : ρ → ρ) (hf : ∀ r, key (f r) = key r) :
    (t.mapRows f hf).rows = t.rows.map f := rfl

/-- Two rows of one table with the same key are the same row. -/
theorem eq_of_key_eq (t : Table key) {r r' : ρ} (h : r ∈ t.rows) (h' : r' ∈ t.rows)
    (hk : key r = key r') : r = r' := List.inj_on_of_nodup_map t.nodup h h' hk

section Keyed

variable [DecidableEq κ]

/-- `SELECT ... WHERE key = k`. -/
def find? (t : Table key) (k : κ) : Option ρ := t.rows.find? (fun r ↦ key r = k)

/-- `UPDATE t SET ... WHERE key = k`. -/
def modify (t : Table key) (k : κ) (f : ρ → ρ) (hf : ∀ r, key (f r) = key r) : Table key :=
  t.mapRows (fun r ↦ if key r = k then f r else r)
    (fun r ↦ by by_cases h : key r = k <;> simp [h, hf])

/-- `INSERT INTO t ... ` of a row whose key is new. -/
def insert (t : Table key) (r : ρ) (h : t.find? (key r) = none) : Table key where
  rows := t.rows ++ [r]
  nodup := by
    have hr : key r ∉ t.rows.map key := by
      intro hm
      obtain ⟨x, hx, hk⟩ := List.mem_map.mp hm
      exact absurd hk (by simpa using List.find?_eq_none.mp h x hx)
    rw [List.map_append, List.nodup_append]
    refine ⟨t.nodup, by simp, ?_⟩
    rintro a ha b hb rfl
    simp only [List.map_cons, List.map_nil, List.mem_singleton] at hb
    exact hr (hb ▸ ha)

/-- The table filled with these rows, one after another; a row whose key is taken is left out. -/
def ofRows (rows : List ρ) : Table key :=
  rows.foldl (fun t r ↦ if h : t.find? (key r) = none then t.insert r h else t) empty

/-! ## Looking rows up -/

theorem find?_eq_some {t : Table key} {k : κ} {r : ρ} :
    t.find? k = some r ↔ r ∈ t.rows ∧ key r = k := by
  constructor
  · intro h
    exact ⟨List.mem_of_find?_eq_some h, by simpa using List.find?_some h⟩
  · rintro ⟨hr, rfl⟩
    cases h : t.find? (key r) with
    | none => exact absurd (decide_eq_true rfl) (List.find?_eq_none.mp h r hr)
    | some r' =>
        have hk : key r' = key r := by simpa using List.find?_some h
        rw [t.eq_of_key_eq (List.mem_of_find?_eq_some h) hr hk]

/-- A row is found under its own key. -/
theorem find?_key {t : Table key} {r : ρ} (h : r ∈ t.rows) : t.find? (key r) = some r :=
  find?_eq_some.mpr ⟨h, rfl⟩

theorem mem_of_find? {t : Table key} {k : κ} {r : ρ} (h : t.find? k = some r) : r ∈ t.rows :=
  (find?_eq_some.mp h).1

theorem key_of_find? {t : Table key} {k : κ} {r : ρ} (h : t.find? k = some r) : key r = k :=
  (find?_eq_some.mp h).2

theorem find?_eq_none {t : Table key} {k : κ} : t.find? k = none ↔ ∀ r ∈ t.rows, key r ≠ k := by
  simp [find?, List.find?_eq_none]

@[simp] theorem find?_mapRows (t : Table key) (f : ρ → ρ) (hf : ∀ r, key (f r) = key r) (k : κ) :
    (t.mapRows f hf).find? k = (t.find? k).map f := by
  have h : ((fun r ↦ decide (key r = k)) ∘ f) = fun r ↦ decide (key r = k) := by
    funext r; simp [hf]
  rw [find?, rows_mapRows, List.find?_map, h]; rfl

theorem find?_modify_eq_map (t : Table key) (k k' : κ) (f : ρ → ρ)
    (hf : ∀ r, key (f r) = key r) :
    (t.modify k f hf).find? k' = (t.find? k').map fun r ↦ if key r = k then f r else r :=
  find?_mapRows _ _ _ _

/-- An update addresses the row with its key and no other. -/
theorem find?_modify (t : Table key) (k k' : κ) (f : ρ → ρ) (hf : ∀ r, key (f r) = key r) :
    (t.modify k f hf).find? k' = if k' = k then (t.find? k').map f else t.find? k' := by
  rw [find?_modify_eq_map]
  cases h : t.find? k' with
  | none => simp
  | some r => by_cases hk : k' = k <;> simp [key_of_find? h, hk]

@[simp] theorem find?_modify_self (t : Table key) (k : κ) (f : ρ → ρ)
    (hf : ∀ r, key (f r) = key r) : (t.modify k f hf).find? k = (t.find? k).map f := by
  rw [find?_modify, if_pos rfl]

theorem find?_modify_of_ne (t : Table key) {k k' : κ} (h : k' ≠ k) (f : ρ → ρ)
    (hf : ∀ r, key (f r) = key r) : (t.modify k f hf).find? k' = t.find? k' := by
  rw [find?_modify, if_neg h]

/-- Two updates of one row, one after the other. -/
theorem modify_modify (t : Table key) (k : κ) {f g h : ρ → ρ} {hf : ∀ r, key (f r) = key r}
    {hg : ∀ r, key (g r) = key r} {hh : ∀ r, key (h r) = key r} (hfg : ∀ r, g (f r) = h r) :
    (t.modify k f hf).modify k g hg = t.modify k h hh := by
  refine Table.ext ?_
  simp only [modify, rows_mapRows, List.map_map]
  refine List.map_congr_left fun r _ ↦ ?_
  by_cases hr : key r = k
  · simp only [Function.comp_apply, if_pos hr, hf, hfg]
  · simp only [Function.comp_apply, if_neg hr]

theorem mem_modify {t : Table key} {k : κ} {f : ρ → ρ} {hf : ∀ r, key (f r) = key r} {r : ρ} :
    r ∈ (t.modify k f hf).rows ↔
      (∃ r₀ ∈ t.rows, key r₀ = k ∧ r = f r₀) ∨ (r ∈ t.rows ∧ key r ≠ k) := by
  rw [modify, rows_mapRows, List.mem_map]
  constructor
  · rintro ⟨r₀, h₀, h⟩
    by_cases hk : key r₀ = k
    · exact .inl ⟨r₀, h₀, hk, by rw [← h, if_pos hk]⟩
    · rw [if_neg hk] at h
      exact .inr (h ▸ ⟨h₀, hk⟩)
  · rintro (⟨r₀, h₀, hk, rfl⟩ | ⟨h, hk⟩)
    · exact ⟨r₀, h₀, if_pos hk⟩
    · exact ⟨r, h, if_neg hk⟩

theorem mem_insert {t : Table key} {r r' : ρ} (h : t.find? (key r) = none) :
    r' ∈ (t.insert r h).rows ↔ r' ∈ t.rows ∨ r' = r := by simp [insert]

theorem find?_insert (t : Table key) (r : ρ) (h : t.find? (key r) = none) (k : κ) :
    (t.insert r h).find? k = if k = key r then some r else t.find? k := by
  by_cases hk : k = key r
  · rw [if_pos hk, hk]
    exact find?_key ((mem_insert h).mpr (.inr rfl))
  · rw [if_neg hk, find?, insert, List.find?_append]
    simp [Ne.symm hk, find?]

/-- The keys of the rows with a given property. -/
def keysWhere (t : Table key) (p : ρ → Bool) : Finset κ := ((t.rows.filter p).map key).toFinset

theorem mem_keysWhere {t : Table key} {p : ρ → Bool} {k : κ} :
    k ∈ t.keysWhere p ↔ ∃ r, t.find? k = some r ∧ p r = true := by
  simp only [keysWhere, List.mem_toFinset, List.mem_map, List.mem_filter]
  constructor
  · rintro ⟨r, ⟨hr, hp⟩, rfl⟩
    exact ⟨r, find?_key hr, hp⟩
  · rintro ⟨r, hr, hp⟩
    exact ⟨r, ⟨mem_of_find? hr, hp⟩, key_of_find? hr⟩

/-! ## Views -/

section View

variable {σ : Type w} {key' : σ → κ}

/-- A table with the same keys and other rows. -/
def view (t : Table key) (f : ρ → σ) (hf : ∀ r, key' (f r) = key r) : Table key' where
  rows := t.rows.map f
  nodup := by
    have h : (t.rows.map f).map key' = t.rows.map key := by
      rw [List.map_map]
      exact List.map_congr_left fun r _ ↦ hf r
    rw [h]
    exact t.nodup

variable {t : Table key} {f : ρ → σ} {hf : ∀ r, key' (f r) = key r}

omit [DecidableEq κ] in
theorem mem_view {x : σ} : x ∈ (t.view f hf).rows ↔ ∃ r ∈ t.rows, f r = x := List.mem_map

theorem find?_view (k : κ) : (t.view f hf).find? k = (t.find? k).map f := by
  have h : ((fun x ↦ decide (key' x = k)) ∘ f) = fun r ↦ decide (key r = k) := by
    funext r
    simp [hf]
  rw [find?, view, List.find?_map, h]
  rfl

/-- An update is seen as an update. -/
theorem view_modify {k : κ} {g : ρ → ρ} {hg : ∀ r, key (g r) = key r} {g' : σ → σ}
    {hg' : ∀ x, key' (g' x) = key' x} (h : ∀ r ∈ t.rows, key r = k → f (g r) = g' (f r)) :
    (t.modify k g hg).view f hf = (t.view f hf).modify k g' hg' := by
  refine Table.ext ?_
  simp only [view, modify, rows_mapRows, List.map_map]
  refine List.map_congr_left fun r hr ↦ ?_
  simp only [Function.comp_apply, hf]
  by_cases hk : key r = k
  · rw [if_pos hk, if_pos hk, h r hr hk]
  · rw [if_neg hk, if_neg hk]

/-- An update of what is not seen is not seen. -/
theorem view_modify_of_eq {k : κ} {g : ρ → ρ} {hg : ∀ r, key (g r) = key r}
    (h : ∀ r ∈ t.rows, key r = k → f (g r) = f r) :
    (t.modify k g hg).view f hf = t.view f hf := by
  refine Table.ext ?_
  simp only [view, modify, rows_mapRows, List.map_map]
  refine List.map_congr_left fun r hr ↦ ?_
  simp only [Function.comp_apply]
  by_cases hk : key r = k
  · rw [if_pos hk, h r hr hk]
  · rw [if_neg hk]

end View

/-! ## Aggregates -/

variable {M : Type*}

/-- `SELECT SUM(w)`. -/
def sum [AddCommMonoid M] (t : Table key) (w : ρ → M) : M := (t.rows.map w).sum

omit [DecidableEq κ] in
theorem sum_congr [AddCommMonoid M] {t : Table key} {w w' : ρ → M}
    (h : ∀ r ∈ t.rows, w r = w' r) : t.sum w = t.sum w' := by
  rw [sum, sum, List.map_congr_left h]

omit [DecidableEq κ] in
theorem sum_mapRows [AddCommMonoid M] (t : Table key) (f : ρ → ρ) (hf : ∀ r, key (f r) = key r)
    (w : ρ → M) : (t.mapRows f hf).sum w = t.sum fun r ↦ w (f r) := by
  rw [sum, sum, rows_mapRows, List.map_map]; rfl

omit [DecidableEq κ] in
theorem sum_view [AddCommMonoid M] {σ : Type w} {key' : σ → κ} {t : Table key} {f : ρ → σ}
    {hf : ∀ r, key' (f r) = key r} (w : σ → M) : (t.view f hf).sum w = t.sum fun r ↦ w (f r) := by
  rw [sum, sum, view, List.map_map]
  rfl

@[simp] theorem sum_insert [AddCommMonoid M] (t : Table key) (r : ρ)
    (h : t.find? (key r) = none) (w : ρ → M) : (t.insert r h).sum w = t.sum w + w r := by
  simp [sum, insert]

/-- Changing the weight of a single row changes the sum by the difference. -/
theorem sum_eq_add [AddCommGroup M] {t : Table key} {k : κ} {r : ρ} (h : t.find? k = some r)
    {w w' : ρ → M} (hw : ∀ x ∈ t.rows, key x ≠ k → w x = w' x) :
    t.sum w = t.sum w' - w' r + w r := by
  obtain ⟨pre, post, hrows⟩ := List.append_of_mem (mem_of_find? h)
  have hn := t.nodup
  rw [hrows, List.map_append, List.map_cons, List.nodup_append] at hn
  have hpre : ∀ x ∈ pre, w x = w' x := fun x hx ↦
    hw x (hrows ▸ List.mem_append_left _ hx) fun hk ↦
      hn.2.2 _ (List.mem_map_of_mem hx) _ List.mem_cons_self (hk.trans (key_of_find? h).symm)
  have hpost : ∀ x ∈ post, w x = w' x := fun x hx ↦
    hw x (hrows ▸ List.mem_append_right _ (List.mem_cons_of_mem _ hx)) fun hk ↦
      (List.nodup_cons.mp hn.2.1).1
        ((key_of_find? h).trans hk.symm ▸ List.mem_map_of_mem hx)
  simp only [sum, hrows, List.map_append, List.map_cons, List.sum_append, List.sum_cons,
    List.map_congr_left hpre, List.map_congr_left hpost]
  abel

/-- What an update of one row does to an aggregate. -/
theorem sum_modify [AddCommGroup M] {t : Table key} {k : κ} {r : ρ} (h : t.find? k = some r)
    (f : ρ → ρ) (hf : ∀ r, key (f r) = key r) (w : ρ → M) :
    (t.modify k f hf).sum w = t.sum w - w r + w (f r) := by
  have hw : ∀ x ∈ t.rows, key x ≠ k → w (if key x = k then f x else x) = w x := fun x _ hx ↦ by
    rw [if_neg hx]
  rw [modify, sum_mapRows, sum_eq_add h hw, if_pos (key_of_find? h)]

/-- An update of a missing row does nothing. -/
theorem modify_of_find?_none {t : Table key} {k : κ} (h : t.find? k = none) (f : ρ → ρ)
    (hf : ∀ r, key (f r) = key r) : t.modify k f hf = t := by
  apply ext
  rw [modify, rows_mapRows]
  exact (List.map_congr_left fun r hr ↦ if_neg (find?_eq_none.mp h r hr)).trans (List.map_id _)

/-- An update after which every row weighs what it weighed before, if under other weights. -/
theorem sum_modify_congr [AddCommMonoid M] (t : Table key) (k : κ) (f : ρ → ρ)
    (hf : ∀ r, key (f r) = key r) {w w' : ρ → M} (hk : ∀ r ∈ t.rows, key r = k → w' (f r) = w r)
    (hne : ∀ r ∈ t.rows, key r ≠ k → w' r = w r) : (t.modify k f hf).sum w' = t.sum w := by
  rw [modify, sum_mapRows]
  refine sum_congr fun r hr ↦ ?_
  by_cases hrk : key r = k
  · rw [if_pos hrk, hk r hr hrk]
  · rw [if_neg hrk, hne r hr hrk]

omit [DecidableEq κ] in
theorem sum_nonneg [AddCommMonoid M] [PartialOrder M] [IsOrderedAddMonoid M] {t : Table key}
    {w : ρ → M} (h : ∀ r ∈ t.rows, 0 ≤ w r) : 0 ≤ t.sum w := by
  refine List.sum_nonneg fun x hx ↦ ?_
  obtain ⟨r, hr, rfl⟩ := List.mem_map.mp hx
  exact h r hr

/-- A nonnegative aggregate is at least the contribution of any one row. -/
theorem le_sum [AddCommGroup M] [PartialOrder M] [IsOrderedAddMonoid M] {t : Table key} {k : κ}
    {r : ρ} (h : t.find? k = some r) {w : ρ → M} (hw : ∀ r ∈ t.rows, 0 ≤ w r) :
    w r ≤ t.sum w := by
  have hs : t.sum w = t.sum (fun x ↦ if key x = k then 0 else w x) -
      (if key r = k then 0 else w r) + w r := sum_eq_add h fun x _ hx ↦ (if_neg hx).symm
  have hn : 0 ≤ t.sum fun x ↦ if key x = k then 0 else w x := by
    refine sum_nonneg fun x hx ↦ ?_
    by_cases hk : key x = k
    · rw [if_pos hk]
    · rw [if_neg hk]; exact hw x hx
  rw [hs, if_pos (key_of_find? h), sub_zero]
  exact le_add_of_nonneg_left hn

/-- A nonnegative aggregate vanishes when every row's contribution does. -/
theorem sum_eq_zero_iff [AddCommGroup M] [PartialOrder M] [IsOrderedAddMonoid M] {t : Table key}
    {w : ρ → M} (hw : ∀ r ∈ t.rows, 0 ≤ w r) : t.sum w = 0 ↔ ∀ r ∈ t.rows, w r = 0 := by
  constructor
  · intro h r hr
    exact le_antisymm (h ▸ le_sum (find?_key hr) hw) (hw r hr)
  · intro h
    rw [sum_congr h, sum]
    simp

end Keyed

/-! ## Tables whose rows are related -/

/-- The two tables have rows under the same keys, and these are related. -/
structure Related (R : ρ → ρ → Prop) (t u : Table key) : Prop where
  right : ∀ r ∈ t.rows, ∃ r' ∈ u.rows, key r' = key r ∧ R r r'
  left : ∀ r' ∈ u.rows, ∃ r ∈ t.rows, key r = key r' ∧ R r r'

namespace Related

variable {R : ρ → ρ → Prop} {t u : Table key}

theorem refl (h : ∀ r ∈ t.rows, R r r) : Related R t t where
  right r hr := ⟨r, hr, rfl, h r hr⟩
  left r hr := ⟨r, hr, rfl, h r hr⟩

theorem mono {R' : ρ → ρ → Prop} (h : Related R t u) (hR : ∀ r ∈ t.rows, ∀ r', R r r' → R' r r') :
    Related R' t u where
  right r hr := by
    obtain ⟨r', hr', hk, hrr⟩ := h.right r hr
    exact ⟨r', hr', hk, hR r hr r' hrr⟩
  left r' hr' := by
    obtain ⟨r, hr, hk, hrr⟩ := h.left r' hr'
    exact ⟨r, hr, hk, hR r hr r' hrr⟩

theorem trans {R' R'' : ρ → ρ → Prop} {v : Table key} (h : Related R t u) (h' : Related R' u v)
    (hR : ∀ r r' r'', R r r' → R' r' r'' → R'' r r'') : Related R'' t v where
  right r hr := by
    obtain ⟨r', hr', hk, hrr⟩ := h.right r hr
    obtain ⟨r'', hr'', hk', hrr'⟩ := h'.right r' hr'
    exact ⟨r'', hr'', hk'.trans hk, hR r r' r'' hrr hrr'⟩
  left r'' hr'' := by
    obtain ⟨r', hr', hk', hrr'⟩ := h'.left r'' hr''
    obtain ⟨r, hr, hk, hrr⟩ := h.left r' hr'
    exact ⟨r, hr, hk.trans hk', hR r r' r'' hrr hrr'⟩

/-- An update turns one relation into another when it does so for the one row and the others have
it anyway. -/
theorem modify_mono [DecidableEq κ] {R' : ρ → ρ → Prop} (h : Related R t u) {k : κ} {f : ρ → ρ}
    (hf : ∀ r, key (f r) = key r)
    (hself : ∀ r ∈ t.rows, key r = k → ∀ r', R r r' → R' r (f r'))
    (hother : ∀ r ∈ t.rows, key r ≠ k → ∀ r', R r r' → R' r r') :
    Related R' t (u.modify k f hf) := by
  constructor
  · intro r hr
    obtain ⟨r', hr', hk, hrr⟩ := h.right r hr
    by_cases hrk : key r = k
    · refine ⟨f r', mem_modify.mpr (.inl ⟨r', hr', hk.trans hrk, rfl⟩), (hf r').trans hk, ?_⟩
      exact hself r hr hrk r' hrr
    · exact ⟨r', mem_modify.mpr (.inr ⟨hr', fun h ↦ hrk (hk.symm.trans h)⟩), hk,
        hother r hr hrk r' hrr⟩
  · intro x hx
    rcases mem_modify.mp hx with ⟨r', hr', hk', rfl⟩ | ⟨hx, hne⟩
    · obtain ⟨r, hr, hk, hrr⟩ := h.left r' hr'
      exact ⟨r, hr, hk.trans (hf r').symm, hself r hr (hk.trans hk') r' hrr⟩
    · obtain ⟨r, hr, hk, hrr⟩ := h.left x hx
      exact ⟨r, hr, hk, hother r hr (fun h ↦ hne (hk.symm.trans h)) x hrr⟩

/-- An update keeps the tables related when it keeps the one row related. -/
theorem modify [DecidableEq κ] (h : Related R t u) {k : κ} {f : ρ → ρ}
    (hf : ∀ r, key (f r) = key r)
    (hR : ∀ r ∈ t.rows, key r = k → ∀ r', R r r' → R r (f r')) :
    Related R t (u.modify k f hf) := h.modify_mono hf hR fun _ _ _ _ hrr ↦ hrr

/-- The rows of one table are those of the other with each replaced by one to which it is
related. -/
theorem exists_map (h : Related R t u) :
    ∃ f : ρ → ρ, (t.rows.map f).Perm u.rows ∧ ∀ r ∈ t.rows, R r (f r) := by
  have hchoose : ∀ r, ∃ r', r ∈ t.rows → r' ∈ u.rows ∧ key r' = key r ∧ R r r' := by
    intro r
    by_cases hr : r ∈ t.rows
    · obtain ⟨r', hr', hk, hrr⟩ := h.right r hr
      exact ⟨r', fun _ ↦ ⟨hr', hk, hrr⟩⟩
    · exact ⟨r, fun hr' ↦ absurd hr' hr⟩
  choose f hf using hchoose
  have hkeys : (t.rows.map f).map key = t.rows.map key := by
    rw [List.map_map]
    exact List.map_congr_left fun r hr ↦ (hf r hr).2.1
  have hnodup : (t.rows.map f).Nodup := .of_map key (hkeys ▸ t.nodup)
  refine ⟨f, (List.perm_ext_iff_of_nodup hnodup (.of_map key u.nodup)).mpr fun x ↦ ?_,
    fun r hr ↦ (hf r hr).2.2⟩
  rw [List.mem_map]
  constructor
  · rintro ⟨r, hr, rfl⟩
    exact (hf r hr).1
  · intro hx
    obtain ⟨r, hr, hk, -⟩ := h.left x hx
    exact ⟨r, hr, u.eq_of_key_eq (hf r hr).1 hx ((hf r hr).2.1.trans hk)⟩

/-- An aggregate to which related rows contribute the same. -/
theorem sum_eq {M : Type*} [AddCommMonoid M] {w : ρ → M} (h : Related R t u)
    (hw : ∀ r r', R r r' → w r' = w r) : u.sum w = t.sum w := by
  obtain ⟨f, hperm, hR⟩ := h.exists_map
  rw [sum, sum, ← (hperm.map w).sum_eq, List.map_map]
  exact congrArg List.sum (List.map_congr_left fun r hr ↦ hw r (f r) (hR r hr))

/-- An aggregate to which related rows contribute no less. -/
theorem sum_le {M : Type*} [AddCommMonoid M] [PartialOrder M] [IsOrderedAddMonoid M] {w : ρ → M}
    (h : Related R t u) (hw : ∀ r ∈ t.rows, ∀ r', R r r' → w r ≤ w r') : t.sum w ≤ u.sum w := by
  obtain ⟨f, hperm, hR⟩ := h.exists_map
  rw [sum, sum, ← (hperm.map w).sum_eq, List.map_map]
  exact List.sum_le_sum fun r hr ↦ hw r hr (f r) (hR r hr)

end Related

end Table

end GpuScheduler.Lib
