import Mathlib.Data.List.Basic

/-!
# Intervals cut from the top

A list of spans tiles an interval from its top downwards: each span ends just
below the one before.  A span may be empty.
-/

namespace Tiling

/-- The first and the last number of a span. -/
abbrev Span := ℕ × ℕ

def Span.Contains (span : Span) (n : ℕ) : Prop := span.1 ≤ n ∧ n ≤ span.2

instance (span : Span) (n : ℕ) : Decidable (span.Contains n) :=
  inferInstanceAs (Decidable (span.1 ≤ n ∧ n ≤ span.2))

/-- The spans tile the numbers from `first` to below `bound`. -/
def Tiles (first : ℕ) : ℕ → List Span → Prop
  | bound, [] => bound = first
  | bound, span :: spans =>
      span.2 + 1 = bound ∧ span.1 ≤ bound ∧ first ≤ span.1 ∧ Tiles first span.1 spans

variable {first bound n : ℕ} {spans : List Span}

theorem Tiles.not_contains (h : Tiles first bound spans) (hn : bound ≤ n) :
    ∀ span ∈ spans, ¬ span.Contains n := by
  induction spans generalizing bound with
  | nil => simp
  | cons head spans ih =>
      obtain ⟨hlast, hhead, -, hrest⟩ := h
      intro span hspan hcontains
      rcases List.mem_cons.mp hspan with rfl | hspan
      · have hle := hcontains.2
        omega
      · exact ih hrest (Nat.le_trans hhead hn) span hspan hcontains

/-- Every number of the interval is in exactly one span. -/
theorem Tiles.once (h : Tiles first bound spans) (hfirst : first ≤ n) (hn : n < bound) :
    (spans.filter fun span ↦ span.Contains n).length = 1 := by
  induction spans generalizing bound with
  | nil =>
      obtain rfl : bound = first := h
      exact absurd hn (Nat.not_lt.mpr hfirst)
  | cons head spans ih =>
      obtain ⟨hlast, hhead, -, hrest⟩ := h
      by_cases hin : head.1 ≤ n
      · have hcontains : head.Contains n := ⟨hin, by omega⟩
        have hnone : spans.filter (fun span ↦ span.Contains n) = [] := by
          apply List.filter_eq_nil_iff.mpr
          intro span hspan
          simpa using hrest.not_contains hin span hspan
        rw [List.filter_cons_of_pos (by simpa using hcontains), hnone]
        rfl
      · have hnot : ¬ head.Contains n := fun hcontains ↦ hin hcontains.1
        rw [List.filter_cons_of_neg (by simpa using hnot)]
        exact ih hrest (Nat.not_le.mp hin)

end Tiling
