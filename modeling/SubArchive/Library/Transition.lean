import Mathlib.Data.Nat.Notation
import Mathlib.Logic.Relation

/-!
# Machines driven by events

A machine is a partial function from a state and an event to the next state.
Everything the environment chooses is in the event, so a run is determined by
its events.  A restriction `allowed` says which events the environment may
produce in which states; results about a class of runs are results about a
restriction.
-/

namespace Transition

variable {σ ε : Type*}

def Step (next : σ → ε → Option σ) (allowed : σ → ε → Prop) (s t : σ) : Prop :=
  ∃ e, allowed s e ∧ next s e = some t

abbrev Reaches (next : σ → ε → Option σ) (allowed : σ → ε → Prop) : σ → σ → Prop :=
  Relation.ReflTransGen (Step next allowed)

/-- Feed a list of events to the machine, each allowed in the state it meets. -/
def execute (next : σ → ε → Option σ) (allowed : σ → ε → Prop)
    [∀ s e, Decidable (allowed s e)] : σ → List ε → Option σ
  | s, [] => some s
  | s, e :: es =>
      if allowed s e then (next s e).bind fun t ↦ execute next allowed t es else none

variable {next : σ → ε → Option σ} {allowed : σ → ε → Prop}

/-- What holds at the start and is kept by every allowed step holds in every
state a run reaches. -/
theorem Reaches.invariant {I : σ → Prop} {s t : σ} (h : Reaches next allowed s t) (hs : I s)
    (hstep : ∀ a e b, I a → allowed a e → next a e = some b → I b) : I t := by
  induction h with
  | refl => exact hs
  | tail _ hlast ih =>
      obtain ⟨e, he, hnext⟩ := hlast
      exact hstep _ e _ ih he hnext

theorem Reaches.mono {allowed' : σ → ε → Prop} (hle : ∀ s e, allowed s e → allowed' s e)
    {s t : σ} (h : Reaches next allowed s t) : Reaches next allowed' s t := by
  refine Relation.ReflTransGen.mono ?_ _ _ h
  rintro a b ⟨e, he, hnext⟩
  exact ⟨e, hle a e he, hnext⟩

/-- Along a run that keeps `I`, every step is taken in a state where `I`
holds. -/
theorem Reaches.with_invariant {I : σ → Prop} {s t : σ} (h : Reaches next allowed s t) (hs : I s)
    (hstep : ∀ a e b, I a → allowed a e → next a e = some b → I b) :
    Reaches next (fun a e ↦ allowed a e ∧ I a) s t ∧ I t := by
  induction h with
  | refl => exact ⟨.refl, hs⟩
  | tail _ hlast ih =>
      obtain ⟨e, he, hnext⟩ := hlast
      exact ⟨ih.1.tail ⟨e, ⟨he, ih.2⟩, hnext⟩, hstep _ e _ ih.2 he hnext⟩

theorem Reaches.of_execute [∀ s e, Decidable (allowed s e)] {allowed' : σ → ε → Prop}
    {s t : σ} {es : List ε} (hle : ∀ a, ∀ e ∈ es, allowed a e → allowed' a e)
    (h : execute next allowed s es = some t) : Reaches next allowed' s t := by
  induction es generalizing s with
  | nil =>
      cases h
      exact .refl
  | cons e es ih =>
      rw [execute] at h
      split at h
      · rename_i he
        obtain ⟨u, hu, hrest⟩ := Option.bind_eq_some_iff.mp h
        have hfirst : Step next allowed' s u := ⟨e, hle s e List.mem_cons_self he, hu⟩
        exact .head hfirst (ih (fun a e he ↦ hle a e (List.mem_cons_of_mem _ he)) hrest)
      · simp at h

theorem Reaches.exists_of_execute [∀ s e, Decidable (allowed s e)] {allowed' : σ → ε → Prop}
    {α : Type*} {s : σ} {es : List ε} {view : σ → α} {a : α}
    (hle : ∀ a, ∀ e ∈ es, allowed a e → allowed' a e)
    (h : (execute next allowed s es).map view = some a) :
    ∃ t, Reaches next allowed' s t ∧ view t = a := by
  obtain ⟨t, ht, hview⟩ := Option.map_eq_some_iff.mp h
  exact ⟨t, .of_execute hle ht, hview⟩

/-! ## Runs that end -/

/-- No allowed event moves the machine. -/
def Stuck (next : σ → ε → Option σ) (allowed : σ → ε → Prop) (s : σ) : Prop :=
  ∀ e, allowed s e → next s e = none

section Decreasing

variable {effort : σ → ℕ}
  (hdecreases : ∀ s e t, allowed s e → next s e = some t → effort t < effort s)
include hdecreases

/-- A run is no longer than the effort its steps use up. -/
theorem length_add_le_of_execute [∀ s e, Decidable (allowed s e)] {s t : σ} {es : List ε}
    (h : execute next allowed s es = some t) : es.length + effort t ≤ effort s := by
  induction es generalizing s with
  | nil =>
      cases h
      simp
  | cons e es ih =>
      rw [execute] at h
      split at h
      · rename_i he
        obtain ⟨u, hu, hrest⟩ := Option.bind_eq_some_iff.mp h
        have hlt := hdecreases s e u he hu
        have hle := ih hrest
        rw [List.length_cons]
        omega
      · simp at h

theorem exists_stuck (s : σ) : ∃ t, Reaches next allowed s t ∧ Stuck next allowed t := by
  generalize hmeasure : effort s = k
  induction k using Nat.strongRecOn generalizing s with
  | _ k ih =>
      by_cases hstuck : Stuck next allowed s
      · exact ⟨s, .refl, hstuck⟩
      · obtain ⟨e, he, hnext⟩ : ∃ e, allowed s e ∧ next s e ≠ none := by
          simpa [Stuck] using hstuck
        obtain ⟨u, hu⟩ := Option.ne_none_iff_exists'.mp hnext
        have hlt := hdecreases s e u he hu
        obtain ⟨t, hrun, ht⟩ := ih (effort u) (hmeasure ▸ hlt) u rfl
        exact ⟨t, .head ⟨e, he, hu⟩ hrun, ht⟩

end Decreasing

/-! ## Logs -/

variable {α : Type*} {shows : σ → ε → List α}

/-- The machine with a log of what its steps show. -/
def logged (next : σ → ε → Option σ) (shows : σ → ε → List α) (s : σ × List α) (e : ε) :
    Option (σ × List α) :=
  (next s.1 e).map fun t ↦ (t, s.2 ++ shows s.1 e)

/-- What holds of the state and the log at the start, and is kept by every
step together with what it shows, holds of every run. -/
theorem Reaches.logged_invariant {I : σ → List α → Prop} {s t : σ} {log : List α}
    (h : Reaches (logged next shows) (fun s ↦ allowed s.1) (s, []) (t, log)) (hs : I s [])
    (hstep : ∀ a e b log, Reaches next allowed s a → I a log → allowed a e → next a e = some b →
      I b (log ++ shows a e)) :
    Reaches next allowed s t ∧ I t log := by
  generalize hstart : (s, ([] : List α)) = first at h
  generalize hend : (t, log) = last at h
  induction h generalizing t log with
  | refl =>
      cases hstart.trans hend.symm
      exact ⟨.refl, hs⟩
  | tail _ hlast ih =>
      obtain ⟨e, he, hnext⟩ := hlast
      obtain ⟨b, hb, heq⟩ := Option.map_eq_some_iff.mp hnext
      obtain ⟨rfl, rfl⟩ := Prod.mk.inj (heq.trans hend.symm)
      obtain ⟨hrun, hinv⟩ := ih rfl
      exact ⟨hrun.tail ⟨e, he, hb⟩, hstep _ e _ _ hrun hinv he hb⟩

end Transition
