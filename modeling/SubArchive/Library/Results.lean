import Mathlib.Data.List.Forall2

/-!
# Results

Computations that stop at their first error.  The `simp` lemmas run one whose
next step is known; the others say what must have happened when a sequence, a
map or a loop came to an end.
-/

namespace Results

universe u v

variable {ε ε' : Type u} {α β : Type v} {x : Except ε α} {f : α → Except ε β}

/-! ## Running -/

@[simp] theorem ok_bind (a : α) (f : α → Except ε β) : (Except.ok a >>= f) = f a := rfl

@[simp] theorem error_bind (error : ε) (f : α → Except ε β) :
    ((Except.error error : Except ε α) >>= f) = .error error := rfl

@[simp] theorem bind_eq (x : Except ε α) (f : α → Except ε β) : x.bind f = (x >>= f) := rfl

@[simp] theorem pure_eq (a : α) : (pure a : Except ε α) = .ok a := rfl

@[simp] theorem throw_eq (error : ε) : (throw error : Except ε α) = .error error := rfl

@[simp] theorem ok_map (g : α → β) (a : α) : g <$> (Except.ok a : Except ε α) = .ok (g a) := rfl

@[simp] theorem error_map (g : α → β) (error : ε) :
    g <$> (Except.error error : Except ε α) = .error error := rfl

theorem bind_of_ok {a : α} (h : x = .ok a) (f : α → Except ε β) : (x >>= f) = f a := by
  rw [h, ok_bind]

/-! ## Coming to an end -/

theorem bind_eq_ok {b : β} : (x >>= f) = .ok b ↔ ∃ a, x = .ok a ∧ f a = .ok b := by
  cases x <;> simp

theorem pure_eq_ok {a b : α} : (pure a : Except ε α) = .ok b ↔ a = b := by
  simp

theorem map_eq_ok {g : α → β} {b : β} : (g <$> x) = .ok b ↔ ∃ a, x = .ok a ∧ g a = b := by
  cases x <;> simp

theorem throw_ne_ok {error : ε} {a : α} : (throw error : Except ε α) ≠ .ok a := by
  simp

theorem mapError_eq_ok {g : ε → ε'} {a : α} : x.mapError g = .ok a ↔ x = .ok a := by
  cases x <;> simp [Except.mapError]

/-! ## Loops -/

theorem mapM_eq_ok {xs : List α} {ys : List β} :
    xs.mapM f = .ok ys ↔ List.Forall₂ (fun x y ↦ f x = .ok y) xs ys := by
  induction xs generalizing ys with
  | nil =>
      rw [List.mapM_nil, pure_eq_ok, List.forall₂_nil_left_iff]
      exact eq_comm
  | cons x xs ih =>
      simp only [List.mapM_cons, bind_eq_ok, pure_eq_ok, ih, List.forall₂_cons_left_iff]
      constructor
      · rintro ⟨y, hy, more, hmore, rfl⟩
        exact ⟨y, more, hy, hmore, rfl⟩
      · rintro ⟨y, more, hy, hmore, rfl⟩
        exact ⟨y, hy, more, hmore, rfl⟩

theorem forall₂_bind_ok {results : List (Except ε α)} {ys : List β}
    (h : List.Forall₂ (fun result y ↦ (result >>= f) = .ok y) results ys) :
    ∃ xs, results = xs.map .ok ∧ List.Forall₂ (fun x y ↦ f x = .ok y) xs ys := by
  induction h with
  | nil => exact ⟨[], rfl, List.Forall₂.nil⟩
  | cons hstep _ ih =>
      obtain ⟨x, rfl, hx⟩ := bind_eq_ok.mp hstep
      obtain ⟨xs, rfl, hxs⟩ := ih
      exact ⟨x :: xs, rfl, List.Forall₂.cons hx hxs⟩

/-- A loop that appends what each step finds. -/
theorem foldlM_append (f : α → Except ε (List β)) (xs : List α) (result : List β) :
    (xs.foldlM (fun result x ↦ do
      let more ← f x
      return result ++ more) result) = (xs.mapM f).map fun results ↦ result ++ results.flatten := by
  induction xs generalizing result with
  | nil => simp [Except.map]
  | cons x xs ih =>
      rw [List.foldlM_cons, List.mapM_cons]
      rcases f x with error | more
      · rfl
      · refine (ih (result ++ more)).trans ?_
        rcases xs.mapM f with error | results
        · rfl
        · simp [Except.map]

end Results
