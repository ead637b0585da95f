import Mathlib.Data.List.Nodup
import Mathlib.Logic.Function.Basic

/-!
# Patches of partial maps

A patch is a list of keys with new values, where `none` deletes.  Patches are
applied from left to right.  A patch that lists exactly the keys at which two
maps differ leads from the one to the other, and a chain of such patches
replays the last map from the first.
-/

namespace Patch

variable {α β : Type*} [DecidableEq α]

/-- Apply a patch to a partial map. -/
def apply (patch : List (α × Option β)) (m : α → Option β) : α → Option β :=
  patch.foldl (fun m entry ↦ Function.update m entry.1 entry.2) m

@[simp] theorem apply_nil (m : α → Option β) : apply [] m = m := rfl

theorem apply_cons (entry : α × Option β) (patch : List (α × Option β)) (m : α → Option β) :
    apply (entry :: patch) m = apply patch (Function.update m entry.1 entry.2) := rfl

theorem apply_append (patch patch' : List (α × Option β)) (m : α → Option β) :
    apply (patch ++ patch') m = apply patch' (apply patch m) :=
  List.foldl_append

variable {patch : List (α × Option β)} {m m' : α → Option β} {k : α} {v : Option β}

theorem apply_of_notMem (h : k ∉ patch.map Prod.fst) : apply patch m k = m k := by
  induction patch generalizing m with
  | nil => rfl
  | cons entry patch ih =>
      rw [List.map_cons, List.mem_cons, not_or] at h
      rw [apply_cons, ih h.2, Function.update_of_ne h.1]

theorem apply_of_mem (hnd : (patch.map Prod.fst).Nodup) (h : (k, v) ∈ patch) :
    apply patch m k = v := by
  induction patch generalizing m with
  | nil => simp at h
  | cons entry patch ih =>
      rw [List.map_cons, List.nodup_cons] at hnd
      rw [apply_cons]
      rcases List.mem_cons.mp h with rfl | h
      · rw [apply_of_notMem hnd.1, Function.update_self]
      · exact ih hnd.2 h

theorem apply_congr (h : m k = m' k) : apply patch m k = apply patch m' k := by
  induction patch generalizing m m' with
  | nil => exact h
  | cons entry patch ih =>
      rw [apply_cons, apply_cons]
      apply ih
      by_cases hk : k = entry.1
      · rw [hk, Function.update_self, Function.update_self]
      · rw [Function.update_of_ne hk, Function.update_of_ne hk, h]

theorem apply_eq_of_diff (hnd : (patch.map Prod.fst).Nodup)
    (hdiff : ∀ v, (k, v) ∈ patch ↔ m k ≠ m' k ∧ v = m' k) : apply patch m k = m' k := by
  by_cases heq : m k = m' k
  · have hk : k ∉ patch.map Prod.fst := by
      rw [List.mem_map]
      rintro ⟨⟨k', v⟩, hmem, rfl⟩
      exact ((hdiff v).mp hmem).1 heq
    rw [apply_of_notMem hk, heq]
  · exact apply_of_mem hnd ((hdiff _).mpr ⟨heq, rfl⟩)

theorem apply_eq_of_mem (h : k ∈ patch.map Prod.fst) : apply patch m k = apply patch m' k := by
  induction patch generalizing m m' with
  | nil => simp at h
  | cons entry patch ih =>
      rw [apply_cons, apply_cons]
      by_cases hk : k ∈ patch.map Prod.fst
      · exact ih hk
      · obtain rfl : k = entry.1 := (List.mem_cons.mp h).resolve_right hk
        rw [apply_of_notMem hk, apply_of_notMem hk, Function.update_self, Function.update_self]

/-- A patch that led to a map leads to it again. -/
theorem apply_again (h : apply patch m k = m' k) : apply patch m' k = m' k := by
  by_cases hk : k ∈ patch.map Prod.fst
  · rw [← h]
    exact apply_eq_of_mem hk
  · exact apply_of_notMem hk

/-- A patch leads on from the map it starts at, and from the one it ends at. -/
theorem apply_eq_next {before after : α → Option β} (h : apply patch before k = after k)
    (hm : m k = before k ∨ m k = after k) : apply patch m k = after k := by
  rcases hm with hm | hm
  · rw [apply_congr hm, h]
  · rw [apply_congr hm, apply_again h]

/-- Apply `patches 0, ..., patches (n - 1)` in turn. -/
def replay (patches : ℕ → List (α × Option β)) (m : α → Option β) : ℕ → α → Option β
  | 0 => m
  | n + 1 => apply (patches n) (replay patches m n)

/-- A chain of patches, each of which leads from one map to the next at a key,
leads from the first map to the last. -/
theorem replay_eq {patches : ℕ → List (α × Option β)} {maps : ℕ → α → Option β} {n : ℕ}
    (h : ∀ i < n, apply (patches i) (maps i) k = maps (i + 1) k) :
    replay patches (maps 0) n k = maps n k := by
  induction n with
  | zero => rfl
  | succ n ih =>
      have hbefore : replay patches (maps 0) n k = maps n k :=
        ih fun i hi ↦ h i (Nat.lt_succ_of_lt hi)
      rw [replay, apply_congr hbefore, h n (Nat.lt_succ_self n)]

/-- The same when patches may be applied again before the next one. -/
theorem foldl_eq_of_isChain {patches : ℕ → List (α × Option β)} {maps : ℕ → α → Option β}
    {indices : List ℕ} {n : ℕ} (h : ∀ i ∈ indices, apply (patches i) (maps i) k = maps (i + 1) k)
    (hchain : indices.IsChain fun i j ↦ j = i ∨ j = i + 1)
    (hfirst : ∀ i ∈ indices.head?, m k = maps i k ∨ m k = maps (i + 1) k)
    (hlast : indices.getLast? = some n) :
    indices.foldl (fun m i ↦ apply (patches i) m) m k = maps (n + 1) k := by
  induction indices generalizing m with
  | nil => simp at hlast
  | cons i indices ih =>
      have hnext := apply_eq_next (h i List.mem_cons_self) (hfirst i rfl)
      rw [List.foldl_cons]
      rcases indices with _ | ⟨j, indices⟩
      · obtain rfl : i = n := by simpa using hlast
        exact hnext
      · obtain ⟨hadjacent, hrest⟩ := List.isChain_cons_cons.mp hchain
        rw [List.getLast?_cons_cons] at hlast
        refine ih (fun l hl ↦ h l (List.mem_cons_of_mem _ hl)) hrest ?_ hlast
        intro j' hj'
        obtain rfl : j = j' := by simpa using hj'
        rcases hadjacent with rfl | rfl
        · exact Or.inr hnext
        · exact Or.inl hnext

end Patch
