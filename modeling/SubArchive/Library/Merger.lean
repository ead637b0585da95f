import Mathlib.Data.List.Basic

/-!
# Merging what is ready

A reader of a growing list takes all items that are there, one after the other,
and reports the last of them.  The list may grow while it takes them.
-/

variable {α : Type*} {items items' reported : List α} {a : Option α}

/-- How many items were taken, and the one that is to be reported. -/
structure Merger (α : Type*) where
  taken : ℕ
  last : Option α
deriving DecidableEq

namespace Merger

variable {m m' : Merger α}

/-- One round: take the next item, or report when there is none. -/
def poll (items : List α) (m : Merger α) : Option (Option α × Merger α) :=
  match items[m.taken]? with
  | some item => some (none, ⟨m.taken + 1, some item⟩)
  | none => m.last.map fun item ↦ (some item, { m with last := none })

/-- The reports are some of the items in their order, and the last of them is
the last item that was taken, when it is not still to be reported. -/
structure Follows (items : List α) (m : Merger α) (reported : List α) : Prop where
  bound : m.taken ≤ items.length
  sublist : (reported ++ m.last.toList).Sublist (items.take m.taken)
  getLast? : (reported ++ m.last.toList).getLast? = (items.take m.taken).getLast?

theorem follows_start : Follows items ⟨0, none⟩ [] := ⟨Nat.zero_le _, by simp, by simp⟩

theorem Follows.grow (h : m.Follows items reported) (hgrown : items <+: items') :
    m.Follows items' reported := by
  obtain ⟨more, rfl⟩ := hgrown
  have htake : (items ++ more).take m.taken = items.take m.taken :=
    List.take_append_of_le_length h.bound
  refine ⟨?_, ?_, ?_⟩
  · rw [List.length_append]
    exact Nat.le_add_right_of_le h.bound
  · rw [htake]
    exact h.sublist
  · rw [htake]
    exact h.getLast?

theorem Follows.poll (h : m.Follows items reported) (hpoll : m.poll items = some (a, m')) :
    m'.Follows items (reported ++ a.toList) := by
  unfold Merger.poll at hpoll
  rcases hitem : items[m.taken]? with _ | item
  · simp only [hitem, Option.map_eq_some_iff, Prod.mk.injEq] at hpoll
    obtain ⟨last, hlast, rfl, rfl⟩ := hpoll
    obtain ⟨hbound, hsublist, hgetLast⟩ := h
    rw [hlast] at hsublist hgetLast
    exact ⟨hbound, by simpa using hsublist, by simpa using hgetLast⟩
  · simp only [hitem, Option.some.injEq, Prod.mk.injEq] at hpoll
    obtain ⟨rfl, rfl⟩ := hpoll
    have htake : items.take (m.taken + 1) = items.take m.taken ++ [item] := by
      rw [List.take_add_one, hitem]
      rfl
    have hreported : reported.Sublist (items.take m.taken) :=
      (List.sublist_append_left _ _).trans h.sublist
    refine ⟨(List.getElem?_eq_some_iff.mp hitem).1, ?_, ?_⟩
    · simpa [htake] using hreported
    · simp [htake]

/-- A reader that waits has taken everything and reported the last item. -/
theorem Follows.waits (h : m.Follows items reported) (hpoll : m.poll items = none) :
    m.taken = items.length ∧ reported.getLast? = items.getLast? := by
  unfold Merger.poll at hpoll
  rcases hitem : items[m.taken]? with _ | item
  · simp only [hitem, Option.map_eq_none_iff] at hpoll
    have htaken : m.taken = items.length :=
      Nat.le_antisymm h.bound (List.getElem?_eq_none_iff.mp hitem)
    have hgetLast := h.getLast?
    rw [hpoll, htaken, List.take_length] at hgetLast
    exact ⟨htaken, by simpa using hgetLast⟩
  · simp [hitem] at hpoll

end Merger
