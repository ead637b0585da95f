import Mathlib.Data.Finmap
import Mathlib.Data.List.Perm.Basic
import Mathlib.Data.List.ReduceOption
import SubArchive.Library.Results

/-!
# Gathering items into a map

A loop reads items one after another, stops at the first it cannot read,
inserts what it has read into a map and notes every entry that replaced
another.  When it notes none, the order of the items has no influence on the
map.
-/

namespace Gather

open Results

variable {ι κ α ε μ : Type*} [DecidableEq κ]

/-- A map and the labels of the entries that replaced another. -/
abbrev Gathered (κ α μ : Type*) := Finmap (fun _ : κ ↦ α) × List μ

def insertNoting (s : Gathered κ α μ) (item : μ × (Σ _ : κ, α)) : Gathered κ α μ :=
  (s.1.insert item.2.1 item.2.2,
    if (s.1.lookup item.2.1).isSome then s.2 ++ [item.1] else s.2)

/-- What the item holds, when it holds an entry, goes into the map. -/
def collect (s : Gathered κ α μ) : Option (μ × (Σ _ : κ, α)) → Gathered κ α μ
  | none => s
  | some item => insertNoting s item

def run (read : ι → Except ε (Option (μ × (Σ _ : κ, α)))) (s : Gathered κ α μ) (l : List ι) :
    Except ε (Gathered κ α μ) :=
  l.foldlM (fun s i ↦ (read i).map (collect s)) s

variable {read : ι → Except ε (Option (μ × (Σ _ : κ, α)))} {s s' : Gathered κ α μ} {l l' : List ι}
  {items items' : List (μ × (Σ _ : κ, α))}

/-! ## What is inserted -/

theorem notes_eq_nil_of_insertNoting {item : μ × (Σ _ : κ, α)} (h : (insertNoting s item).2 = []) :
    item.2.1 ∉ s.1 ∧ s.2 = [] := by
  rw [← Finmap.lookup_eq_none, ← Option.not_isSome_iff_eq_none]
  unfold insertNoting at h
  split at h
  · simp at h
  · exact ⟨‹_›, h⟩

theorem insertNoting_of_notMem {item : μ × (Σ _ : κ, α)} (h : item.2.1 ∉ s.1) :
    insertNoting s item = (s.1.insert item.2.1 item.2.2, s.2) := by
  rw [insertNoting, Finmap.lookup_eq_none.mpr h]
  rfl

/-- Nothing is noted when the keys are new and pairwise distinct, and only
then. -/
theorem notes_foldl_eq_nil_iff (items : List (μ × (Σ _ : κ, α))) (s : Gathered κ α μ) :
    (items.foldl insertNoting s).2 = [] ↔
      s.2 = [] ∧ (items.map (·.2.1)).Nodup ∧ ∀ item ∈ items, item.2.1 ∉ s.1 := by
  induction items generalizing s with
  | nil => simp
  | cons item items ih =>
    rw [List.foldl_cons, ih, List.map_cons, List.nodup_cons, List.forall_mem_cons, List.mem_map]
    constructor
    · rintro ⟨hnotes, hnodup, hnew⟩
      obtain ⟨hitem, hs⟩ := notes_eq_nil_of_insertNoting hnotes
      simp only [insertNoting, Finmap.mem_insert, not_or] at hnew
      refine ⟨hs, ⟨?_, hnodup⟩, hitem, fun i hi ↦ (hnew i hi).2⟩
      rintro ⟨i, hi, heq⟩
      exact (hnew i hi).1 heq
    · rintro ⟨hs, ⟨hdistinct, hnodup⟩, hitem, hnew⟩
      rw [insertNoting_of_notMem hitem]
      refine ⟨hs, hnodup, fun i hi ↦ ?_⟩
      rw [Finmap.mem_insert, not_or]
      exact ⟨fun heq ↦ hdistinct ⟨i, hi, heq⟩, hnew i hi⟩

/-- Every entry noted nowhere is in the map, and nothing else is. -/
theorem entries_foldl (items : List (μ × (Σ _ : κ, α))) (s : Gathered κ α μ)
    (h : (items.foldl insertNoting s).2 = []) :
    (items.foldl insertNoting s).1.entries =
      (items.map Prod.snd : Multiset (Σ _ : κ, α)) + s.1.entries := by
  induction items generalizing s with
  | nil => simp
  | cons item items ih =>
    have hitem : item.2.1 ∉ s.1 :=
      ((notes_foldl_eq_nil_iff _ s).mp h).2.2 item List.mem_cons_self
    rw [List.foldl_cons] at h ⊢
    rw [ih _ h, insertNoting_of_notMem hitem, Finmap.entries_insert_of_notMem hitem,
      List.map_cons, ← Multiset.cons_coe, Multiset.cons_add, Multiset.add_cons]

theorem notes_eq_nil_iff (items : List (μ × (Σ _ : κ, α))) :
    (items.foldl insertNoting (∅, [])).2 = [] ↔ ((items.map Prod.snd).map Sigma.fst).Nodup := by
  rw [notes_foldl_eq_nil_iff, List.map_map]
  constructor
  · rintro ⟨-, hnodup, -⟩
    exact hnodup
  · intro hnodup
    exact ⟨rfl, hnodup, fun _ _ ↦ Finmap.notMem_empty⟩

theorem entries_eq {items : List (μ × (Σ _ : κ, α))}
    (h : (items.foldl insertNoting (∅, [])).2 = []) :
    (items.foldl insertNoting (∅, [])).1.entries =
      (items.map Prod.snd : Multiset (Σ _ : κ, α)) :=
  (entries_foldl items _ h).trans (add_zero _)

/-- Distinct keys give the same map in any order. -/
theorem foldl_perm (h : items.Perm items') (hnotes : (items.foldl insertNoting s).2 = []) :
    items'.foldl insertNoting s = items.foldl insertNoting s := by
  have hnotes' : (items'.foldl insertNoting s).2 = [] := by
    rw [notes_foldl_eq_nil_iff] at hnotes ⊢
    obtain ⟨hs, hnodup, hnew⟩ := hnotes
    exact ⟨hs, (h.map _).nodup_iff.mp hnodup, fun i hi ↦ hnew i (h.mem_iff.mpr hi)⟩
  refine Prod.ext (Finmap.ext ?_) (hnotes'.trans hnotes.symm)
  rw [entries_foldl _ _ hnotes, entries_foldl _ _ hnotes', Multiset.coe_eq_coe.mpr (h.map _)]

/-! ## What is read -/

theorem foldl_collect (reads : List (Option (μ × (Σ _ : κ, α)))) (s : Gathered κ α μ) :
    reads.foldl collect s = reads.reduceOption.foldl insertNoting s := by
  induction reads generalizing s with
  | nil => rfl
  | cons r reads ih =>
    rcases r with _ | item
    · rw [List.reduceOption_cons_of_none, List.foldl_cons, ih, collect]
    · rw [List.reduceOption_cons_of_some, List.foldl_cons, List.foldl_cons, ih, collect]

/-- The loop ends when every item can be read. -/
theorem run_eq_ok_iff :
    run read s l = .ok s' ↔
      ∃ reads, List.Forall₂ (fun i r ↦ read i = .ok r) l reads ∧
        s' = reads.reduceOption.foldl insertNoting s := by
  induction l generalizing s with
  | nil => simp [run, eq_comm]
  | cons i l ih =>
    rcases hread : read i with error | r
    · simp [run, hread, Except.map, List.forall₂_cons_left_iff]
    · have hstep : run read s (i :: l) = run read (collect s r) l := by
        simp only [run, List.foldlM_cons, hread, Except.map, ok_bind]
      rw [hstep, ih]
      constructor
      · rintro ⟨reads, hreads, rfl⟩
        refine ⟨r :: reads, .cons hread hreads, ?_⟩
        rw [← foldl_collect, ← foldl_collect, List.foldl_cons]
      · rintro ⟨_, hreads, rfl⟩
        obtain ⟨r', reads, hr, htail, rfl⟩ := List.forall₂_cons_left_iff.mp hreads
        obtain rfl : r = r' := Except.ok.inj (hread.symm.trans hr)
        refine ⟨reads, htail, ?_⟩
        rw [← foldl_collect, ← foldl_collect, List.foldl_cons]

theorem exists_read_eq_error {e : ε} (h : run read s l = .error e) :
    ∃ i ∈ l, read i = .error e := by
  induction l generalizing s with
  | nil => cases h
  | cons i l ih =>
    rcases hread : read i with error | r
    · simp only [run, List.foldlM_cons, hread, Except.map, error_bind] at h
      obtain rfl : error = e := Except.error.inj h
      exact ⟨i, List.mem_cons_self, hread⟩
    · simp only [run, List.foldlM_cons, hread, Except.map, ok_bind] at h
      obtain ⟨i', hmem, herror⟩ := ih h
      exact ⟨i', List.mem_cons_of_mem _ hmem, herror⟩

/-- Two orders of the same items end in the same map when one of them notes
nothing. -/
theorem run_perm (h : l.Perm l') (hrun : run read s l = .ok s') (hnotes : s'.2 = []) :
    run read s l' = .ok s' := by
  obtain ⟨reads, hreads, rfl⟩ := run_eq_ok_iff.mp hrun
  obtain ⟨reads', hreads', hperm⟩ := List.perm_comp_forall₂ h.symm hreads
  refine run_eq_ok_iff.mpr ⟨reads', hreads', ?_⟩
  exact (foldl_perm (hperm.symm.filterMap id) hnotes).symm

end Gather
