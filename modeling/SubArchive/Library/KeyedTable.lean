import Mathlib.Data.List.Nodup

/-!
# Tables with a primary key

A table is a list of rows in insertion order whose keys are pairwise distinct.
`upsert` replaces the row with the key of the new one where it stands, or
appends the new row: what `INSERT ... ON CONFLICT DO UPDATE` does to a table
and what `insert` does to a hash map.
-/

@[ext] structure KeyedTable (κ ρ : Type*) (key : ρ → κ) where
  rows : List ρ
  nodup : (rows.map key).Nodup

namespace KeyedTable

variable {κ ρ : Type*} {key : ρ → κ}

def empty : KeyedTable κ ρ key := ⟨[], List.nodup_nil⟩

@[simp] theorem rows_empty : (empty : KeyedTable κ ρ key).rows = [] := rfl

def keys (t : KeyedTable κ ρ key) : List κ := t.rows.map key

@[simp] theorem keys_empty : (empty : KeyedTable κ ρ key).keys = [] := rfl

theorem mem_keys {t : KeyedTable κ ρ key} {k : κ} :
    k ∈ t.keys ↔ ∃ r ∈ t.rows, key r = k := by
  simp [keys]

theorem key_mem_keys {t : KeyedTable κ ρ key} {r : ρ} (hr : r ∈ t.rows) : key r ∈ t.keys :=
  mem_keys.mpr ⟨r, hr, rfl⟩

theorem eq_of_key_eq {t : KeyedTable κ ρ key} {r r' : ρ} (hr : r ∈ t.rows) (hr' : r' ∈ t.rows)
    (h : key r = key r') : r = r' :=
  List.inj_on_of_nodup_map t.nodup hr hr' h

instance [DecidableEq ρ] : DecidableEq (KeyedTable κ ρ key) :=
  fun _ _ ↦ decidable_of_iff _ KeyedTable.ext_iff.symm

variable [DecidableEq κ]

/-- Replace the row that has the key of `r`, or append `r`. -/
def upsertRows (key : ρ → κ) (r : ρ) : List ρ → List ρ
  | [] => [r]
  | x :: xs => if key x = key r then r :: xs else x :: upsertRows key r xs

theorem upsertRows_of_notMem {r : ρ} {rows : List ρ} (h : key r ∉ rows.map key) :
    upsertRows key r rows = rows ++ [r] := by
  induction rows with
  | nil => rfl
  | cons x xs ih =>
      rw [List.map_cons, List.mem_cons, not_or] at h
      rw [upsertRows, if_neg (Ne.symm h.1), ih h.2, List.cons_append]

theorem map_upsertRows_of_mem {r : ρ} {rows : List ρ} (h : key r ∈ rows.map key) :
    (upsertRows key r rows).map key = rows.map key := by
  induction rows with
  | nil => simp at h
  | cons x xs ih =>
      by_cases hx : key x = key r
      · simp [upsertRows, hx]
      · have hxs : key r ∈ xs.map key := by
          rw [List.map_cons, List.mem_cons] at h
          exact h.resolve_left (Ne.symm hx)
        simp [upsertRows, hx, ih hxs]

theorem nodup_upsertRows (r : ρ) {rows : List ρ} (h : (rows.map key).Nodup) :
    ((upsertRows key r rows).map key).Nodup := by
  by_cases hr : key r ∈ rows.map key
  · rw [map_upsertRows_of_mem hr]
    exact h
  · rw [upsertRows_of_notMem hr, List.map_append, List.map_singleton]
    exact h.append (List.nodup_singleton _) (by simpa using hr)

theorem upsertRows_of_mem {r : ρ} {rows : List ρ} (hnd : (rows.map key).Nodup) (h : r ∈ rows) :
    upsertRows key r rows = rows := by
  induction rows with
  | nil => simp at h
  | cons x xs ih =>
      rw [List.map_cons, List.nodup_cons] at hnd
      rcases List.mem_cons.mp h with rfl | hxs
      · simp [upsertRows]
      · have hx : key x ≠ key r := fun heq ↦ hnd.1 (heq ▸ List.mem_map_of_mem hxs)
        rw [upsertRows, if_neg hx, ih hnd.2 hxs]

theorem mem_upsertRows {r x : ρ} {rows : List ρ} (hnd : (rows.map key).Nodup) :
    x ∈ upsertRows key r rows ↔ x = r ∨ (x ∈ rows ∧ key x ≠ key r) := by
  induction rows with
  | nil => simp [upsertRows]
  | cons y ys ih =>
      rw [List.map_cons, List.nodup_cons] at hnd
      by_cases hy : key y = key r
      · have hys : ∀ z ∈ ys, key z ≠ key r := by
          intro z hz heq
          exact hnd.1 (hy.trans heq.symm ▸ List.mem_map_of_mem hz)
        simp only [upsertRows, hy, if_true, List.mem_cons]
        constructor
        · rintro (rfl | hx)
          · exact Or.inl rfl
          · exact Or.inr ⟨Or.inr hx, hys x hx⟩
        · rintro (rfl | ⟨rfl | hx, hne⟩)
          · exact Or.inl rfl
          · exact absurd hy hne
          · exact Or.inr hx
      · simp only [upsertRows, hy, if_false, List.mem_cons, ih hnd.2]
        constructor
        · rintro (rfl | rfl | ⟨hx, hne⟩)
          · exact Or.inr ⟨Or.inl rfl, hy⟩
          · exact Or.inl rfl
          · exact Or.inr ⟨Or.inr hx, hne⟩
        · rintro (rfl | ⟨rfl | hx, hne⟩)
          · exact Or.inr (Or.inl rfl)
          · exact Or.inl rfl
          · exact Or.inr (Or.inr ⟨hx, hne⟩)

def upsert (t : KeyedTable κ ρ key) (r : ρ) : KeyedTable κ ρ key :=
  ⟨upsertRows key r t.rows, nodup_upsertRows r t.nodup⟩

def find? (t : KeyedTable κ ρ key) (k : κ) : Option ρ :=
  t.rows.find? fun r ↦ key r = k

@[simp] theorem mem_rows_upsert {t : KeyedTable κ ρ key} {r x : ρ} :
    x ∈ (t.upsert r).rows ↔ x = r ∨ (x ∈ t.rows ∧ key x ≠ key r) :=
  mem_upsertRows t.nodup

@[simp] theorem mem_keys_upsert {t : KeyedTable κ ρ key} {r : ρ} {k : κ} :
    k ∈ (t.upsert r).keys ↔ k = key r ∨ k ∈ t.keys := by
  simp only [mem_keys, mem_rows_upsert]
  constructor
  · rintro ⟨x, rfl | ⟨hx, _⟩, rfl⟩
    · exact Or.inl rfl
    · exact Or.inr ⟨x, hx, rfl⟩
  · rintro (rfl | ⟨x, hx, rfl⟩)
    · exact ⟨r, Or.inl rfl, rfl⟩
    · by_cases hk : key x = key r
      · exact ⟨r, Or.inl rfl, hk.symm⟩
      · exact ⟨x, Or.inr ⟨hx, hk⟩, rfl⟩

theorem rows_upsert_of_notMem {t : KeyedTable κ ρ key} {r : ρ} (h : key r ∉ t.keys) :
    (t.upsert r).rows = t.rows ++ [r] :=
  upsertRows_of_notMem h

theorem upsert_of_mem {t : KeyedTable κ ρ key} {r : ρ} (h : r ∈ t.rows) : t.upsert r = t :=
  KeyedTable.ext (upsertRows_of_mem t.nodup h)

theorem find?_eq_some_iff {t : KeyedTable κ ρ key} {k : κ} {r : ρ} :
    t.find? k = some r ↔ r ∈ t.rows ∧ key r = k := by
  constructor
  · intro h
    exact ⟨List.mem_of_find?_eq_some h, by simpa using List.find?_some h⟩
  · rintro ⟨hr, rfl⟩
    obtain ⟨x, hx⟩ : ∃ x, t.find? (key r) = some x := by
      apply Option.isSome_iff_exists.mp
      rw [find?, List.find?_isSome]
      exact ⟨r, hr, by simp⟩
    have hkey : key x = key r := by simpa using List.find?_some hx
    rw [hx, eq_of_key_eq (List.mem_of_find?_eq_some hx) hr hkey]

/-! ## The last row with a key -/

/-- The last of the rows with the key `k`. -/
def latest (key : ρ → κ) (k : κ) (rows : List ρ) : Option ρ :=
  (rows.filter fun r ↦ key r = k).getLast?

@[simp] theorem latest_nil {k : κ} : latest key k [] = none := rfl

theorem latest_append {k : κ} {rows more : List ρ} :
    latest key k (rows ++ more) = (latest key k more).or (latest key k rows) := by
  rw [latest, List.filter_append, List.getLast?_append]
  rfl

theorem latest_cons {k : κ} {r : ρ} {rows : List ρ} :
    latest key k (r :: rows) = (latest key k rows).or (if key r = k then some r else none) := by
  rw [← List.singleton_append, latest_append]
  by_cases hr : key r = k <;> simp [latest, hr]

theorem latest_append_singleton {k : κ} {r : ρ} {rows : List ρ} :
    latest key k (rows ++ [r]) = if key r = k then some r else latest key k rows := by
  rw [latest_append, latest_cons, latest_nil, Option.none_or]
  split <;> rfl

theorem mem_of_latest {k : κ} {r : ρ} {rows : List ρ} (h : latest key k rows = some r) :
    r ∈ rows ∧ key r = k := by
  simpa using List.mem_filter.mp (List.mem_of_getLast? h)

theorem latest_rows {t : KeyedTable κ ρ key} {k : κ} {r : ρ} :
    latest key k t.rows = some r ↔ r ∈ t.rows ∧ key r = k := by
  constructor
  · exact mem_of_latest
  · rintro ⟨hr, rfl⟩
    obtain ⟨r', hr'⟩ : ∃ r', latest key (key r) t.rows = some r' := by
      apply Option.isSome_iff_exists.mp
      rw [latest, List.getLast?_isSome]
      exact List.ne_nil_of_mem (List.mem_filter.mpr ⟨hr, by simp⟩)
    obtain ⟨hmem, hkey⟩ := mem_of_latest hr'
    rw [hr', eq_of_key_eq hmem hr hkey]

/-- A table after an `upsert` is as good as the old rows followed by the new
one. -/
theorem latest_upsert {t : KeyedTable κ ρ key} {k : κ} {r : ρ} :
    latest key k (t.upsert r).rows = latest key k (t.rows ++ [r]) := by
  apply Option.ext
  intro x
  rw [latest_rows, mem_rows_upsert, latest_append_singleton]
  by_cases hr : key r = k
  · rw [if_pos hr, Option.some.injEq]
    constructor
    · rintro ⟨rfl | ⟨-, hne⟩, hx⟩
      · rfl
      · exact absurd (hx.trans hr.symm) hne
    · rintro rfl
      exact ⟨Or.inl rfl, hr⟩
  · rw [if_neg hr, latest_rows]
    constructor
    · rintro ⟨rfl | ⟨hx, -⟩, hk⟩
      · exact absurd hk hr
      · exact ⟨hx, hk⟩
    · rintro ⟨hx, hk⟩
      exact ⟨Or.inr ⟨hx, fun heq ↦ hr (heq.symm.trans hk)⟩, hk⟩

theorem latest_append_of_mem {t : KeyedTable κ ρ key} {k : κ} {r : ρ} (hr : r ∈ t.rows) :
    latest key k (t.rows ++ [r]) = latest key k t.rows := by
  rw [latest_append_singleton]
  split
  · rename_i hk
    exact (latest_rows.mpr ⟨hr, hk⟩).symm
  · rfl

theorem latest_map {σ : Type*} {f : ρ → σ} {key' : σ → κ} {k : κ} {rows : List ρ} :
    latest key' k (rows.map f) = (latest (fun r ↦ key' (f r)) k rows).map f := by
  rw [latest, List.filter_map, List.getLast?_map]
  rfl

/-- Collect rows into a table, a later row replacing an earlier one with its
key. -/
def ofList (rows : List ρ) : KeyedTable κ ρ key :=
  rows.foldl upsert empty

theorem rows_ofList {rows : List ρ} (h : (rows.map key).Nodup) :
    (ofList rows : KeyedTable κ ρ key).rows = rows := by
  have hgen : ∀ (xs : List ρ) (t : KeyedTable κ ρ key), ((t.rows ++ xs).map key).Nodup →
      (xs.foldl upsert t).rows = t.rows ++ xs := by
    intro xs
    induction xs with
    | nil => simp
    | cons x xs ih =>
        intro t hnd
        have hx : key x ∉ t.keys := by
          rw [List.map_append, List.map_cons] at hnd
          exact fun hmem ↦ (List.disjoint_of_nodup_append hnd) hmem List.mem_cons_self
        have hrows := rows_upsert_of_notMem hx
        rw [List.foldl_cons, ih, hrows, List.append_assoc, List.singleton_append]
        rw [hrows, List.append_assoc, List.singleton_append]
        exact hnd
  simpa [ofList] using hgen rows empty (by simpa using h)

/-! ## First occurrences -/

/-- Collect `f 0, ..., f (n - 1)`, a row whose key is there being left out. -/
def firsts (f : ℕ → ρ) : ℕ → KeyedTable κ ρ key
  | 0 => empty
  | n + 1 => if key (f n) ∈ (firsts f n).keys then firsts f n else (firsts f n).upsert (f n)

theorem firsts_succ_of_mem {f : ℕ → ρ} {n : ℕ}
    (h : key (f n) ∈ (firsts f n : KeyedTable κ ρ key).keys) :
    (firsts f (n + 1) : KeyedTable κ ρ key) = firsts f n := by
  rw [firsts, if_pos h]

theorem firsts_succ_of_notMem {f : ℕ → ρ} {n : ℕ}
    (h : key (f n) ∉ (firsts f n : KeyedTable κ ρ key).keys) :
    (firsts f (n + 1) : KeyedTable κ ρ key) = (firsts f n).upsert (f n) := by
  rw [firsts, if_neg h]

theorem mem_keys_firsts {f : ℕ → ρ} {n : ℕ} {k : κ} :
    k ∈ (firsts f n : KeyedTable κ ρ key).keys ↔ ∃ i < n, key (f i) = k := by
  induction n with
  | zero => simp [firsts]
  | succ n ih =>
      by_cases hn : key (f n) ∈ (firsts f n : KeyedTable κ ρ key).keys
      · rw [firsts_succ_of_mem hn, ih, Nat.exists_lt_succ_right]
        constructor
        · exact Or.inl
        · rintro (h | rfl)
          · exact h
          · exact ih.mp hn
      · rw [firsts_succ_of_notMem hn, mem_keys_upsert, ih, Nat.exists_lt_succ_right, or_comm,
          eq_comm]

theorem mem_rows_firsts {f : ℕ → ρ} {n : ℕ} {r : ρ} :
    r ∈ (firsts f n : KeyedTable κ ρ key).rows ↔
      ∃ i < n, f i = r ∧ ∀ j < i, key (f j) ≠ key (f i) := by
  induction n with
  | zero => simp [firsts]
  | succ n ih =>
      rw [Nat.exists_lt_succ_right, ← ih]
      by_cases hn : key (f n) ∈ (firsts f n : KeyedTable κ ρ key).keys
      · rw [firsts_succ_of_mem hn]
        obtain ⟨i, hi, hkey⟩ := mem_keys_firsts.mp hn
        constructor
        · exact Or.inl
        · rintro (h | ⟨-, hfresh⟩)
          · exact h
          · exact absurd hkey (hfresh i hi)
      · have hfresh : ∀ j < n, key (f j) ≠ key (f n) := fun j hj heq ↦
          hn (mem_keys_firsts.mpr ⟨j, hj, heq⟩)
        rw [firsts_succ_of_notMem hn, rows_upsert_of_notMem hn, List.mem_append,
          List.mem_singleton]
        constructor
        · rintro (h | rfl)
          · exact Or.inl h
          · exact Or.inr ⟨rfl, hfresh⟩
        · rintro (h | ⟨rfl, -⟩)
          · exact Or.inl h
          · exact Or.inr rfl

theorem rows_firsts {f : ℕ → ρ} (hinj : Function.Injective fun i ↦ key (f i)) (n : ℕ) :
    (firsts f n : KeyedTable κ ρ key).rows = (List.range n).map f := by
  induction n with
  | zero => rfl
  | succ n ih =>
      have hn : key (f n) ∉ (firsts f n : KeyedTable κ ρ key).keys := by
        rw [mem_keys_firsts]
        rintro ⟨i, hi, hkey⟩
        exact Nat.ne_of_lt hi (hinj hkey)
      rw [firsts_succ_of_notMem hn, rows_upsert_of_notMem hn, ih, List.range_succ,
        List.map_append, List.map_singleton]

end KeyedTable
