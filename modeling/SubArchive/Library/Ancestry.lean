import Mathlib.Data.List.Chain
import Mathlib.Logic.Relation

/-!
# Paths in a forest

A forest is given by the parent of each node.  A path leads from a node
downwards, each of its nodes being a child of the one before.
-/

namespace Ancestry

variable {α : Type*} {parent : α → Option α} {a b c : α} {path path' : List α}

/-- `path` leads from `a`, which is not part of it, downwards. -/
def Leads (parent : α → Option α) (a : α) (path : List α) : Prop :=
  List.IsChain (fun x y ↦ parent y = some x) (a :: path)

instance [DecidableEq α] (a : α) (path : List α) : Decidable (Leads parent a path) :=
  inferInstanceAs (Decidable (List.IsChain _ _))

/-- Where a path from `a` ends. -/
def tip (a : α) (path : List α) : α := path.getLastD a

/-- `b` is a strict descendant of `a`. -/
def Descends (parent : α → Option α) (a b : α) : Prop :=
  Relation.TransGen (fun x y ↦ parent y = some x) a b

/-- No node is its own descendant. -/
def Acyclic (parent : α → Option α) : Prop := ∀ a, ¬ Descends parent a a

/-- Where numbers grow from a parent to its child, no node is its own
descendant. -/
theorem acyclic_of_number (number : α → ℕ)
    (hnumber : ∀ a b, parent b = some a → number a < number b) : Acyclic parent := by
  have hdescends : ∀ {a b}, Descends parent a b → number a < number b := by
    intro a b h
    induction h with
    | single hparent => exact hnumber _ _ hparent
    | tail _ hparent ih => exact ih.trans (hnumber _ _ hparent)
  intro a h
  exact absurd (hdescends h) (Nat.lt_irrefl _)

theorem Descends.trans (hab : Descends parent a b) (hbc : Descends parent b c) :
    Descends parent a c :=
  Relation.TransGen.trans hab hbc

@[simp] theorem leads_nil : Leads parent a [] := List.isChain_singleton a

@[simp] theorem leads_cons : Leads parent a (b :: path) ↔ parent b = some a ∧ Leads parent b path :=
  List.isChain_cons_cons

@[simp] theorem tip_nil : tip a [] = a := rfl

@[simp] theorem tip_cons : tip a (b :: path) = tip b path :=
  List.getLastD_cons

@[simp] theorem tip_append_singleton : tip a (path ++ [b]) = b := by
  simp [tip]

theorem tip_mem (h : path ≠ []) : tip a path ∈ path := by
  rw [tip, List.getLastD_eq_getLast?, List.getLast?_eq_some_getLast h]
  exact List.getLast_mem h

theorem leads_append :
    Leads parent a (path ++ path') ↔ Leads parent a path ∧ Leads parent (tip a path) path' := by
  induction path generalizing a with
  | nil => simp
  | cons b path ih => rw [List.cons_append, leads_cons, leads_cons, ih, tip_cons, and_assoc]

theorem leads_append_singleton :
    Leads parent a (path ++ [b]) ↔ Leads parent a path ∧ parent b = some (tip a path) := by
  rw [leads_append, leads_cons]
  simp

theorem Leads.descends (h : Leads parent a path) (hb : b ∈ path) : Descends parent a b := by
  induction path generalizing a with
  | nil => simp at hb
  | cons c path ih =>
      obtain ⟨hparent, hrest⟩ := leads_cons.mp h
      have hfirst : Descends parent a c := .single hparent
      rcases List.mem_cons.mp hb with rfl | hb
      · exact hfirst
      · exact hfirst.trans (ih hrest hb)

theorem Leads.exists_parent (h : Leads parent a path) (hb : b ∈ path) :
    ∃ c, parent b = some c := by
  induction path generalizing a with
  | nil => simp at hb
  | cons d path ih =>
      obtain ⟨hparent, hrest⟩ := leads_cons.mp h
      rcases List.mem_cons.mp hb with rfl | hb
      · exact ⟨a, hparent⟩
      · exact ih hrest hb

theorem Leads.pairwise (h : Leads parent a path) : path.Pairwise (Descends parent) := by
  induction path generalizing a with
  | nil => exact .nil
  | cons c path ih =>
      obtain ⟨-, hrest⟩ := leads_cons.mp h
      exact .cons (fun b hb ↦ hrest.descends hb) (ih hrest)

theorem nodup_of_pairwise_descends (hacyclic : Acyclic parent)
    (h : path.Pairwise (Descends parent)) : path.Nodup := by
  refine h.imp ?_
  rintro b _ hdescends rfl
  exact hacyclic b hdescends

theorem Leads.nodup (hacyclic : Acyclic parent) (h : Leads parent a path) : path.Nodup :=
  nodup_of_pairwise_descends hacyclic h.pairwise

theorem Leads.descends_tip (h : Leads parent a path) : tip a path = a ∨
    Descends parent a (tip a path) := by
  rcases List.eq_nil_or_concat path with rfl | ⟨init, last, rfl⟩
  · exact Or.inl rfl
  · right
    rw [List.concat_eq_append] at h ⊢
    rw [tip_append_singleton]
    exact h.descends (by simp)

/-- A node of a path is its end, or the end descends from it. -/
theorem Leads.mem_descends_tip (h : Leads parent a path) (hb : b ∈ path) : tip a path = b ∨
    Descends parent b (tip a path) := by
  induction path generalizing a with
  | nil => simp at hb
  | cons c path ih =>
      obtain ⟨-, hrest⟩ := leads_cons.mp h
      rw [tip_cons]
      rcases List.mem_cons.mp hb with rfl | hb
      · exact hrest.descends_tip
      · exact ih hrest hb

theorem descends_iff : Descends parent a b ↔
    ∃ path, Leads parent a path ∧ tip a path = b ∧ path ≠ [] := by
  constructor
  · intro h
    induction h with
    | single hparent => exact ⟨[_], by simpa using hparent, rfl, by simp⟩
    | @tail b c _ hparent ih =>
        obtain ⟨path, hpath, rfl, -⟩ := ih
        exact ⟨path ++ [c], leads_append_singleton.mpr ⟨hpath, hparent⟩, by simp, by simp⟩
  · rintro ⟨path, hpath, rfl, hne⟩
    exact hpath.descends (tip_mem hne)

theorem tip_append : tip a (path ++ path') = tip (tip a path) path' := by
  induction path generalizing a with
  | nil => rfl
  | cons b path ih => rw [List.cons_append, tip_cons, tip_cons, ih]

/-- The path between two nodes is unique. -/
theorem Leads.unique (hacyclic : Acyclic parent) (h : Leads parent a path)
    (h' : Leads parent a path') (htip : tip a path = tip a path') : path = path' := by
  have hloop : ∀ {q b}, Leads parent a (q ++ [b]) → tip a (q ++ [b]) ≠ a := by
    intro q b hq heq
    rw [tip_append_singleton] at heq
    subst heq
    exact hacyclic _ (hq.descends (by simp))
  induction path using List.reverseRecOn generalizing path' with
  | nil =>
      rcases List.eq_nil_or_concat path' with rfl | ⟨q, b, rfl⟩
      · rfl
      · rw [List.concat_eq_append] at h' htip
        exact absurd htip.symm (hloop h')
  | append_singleton p b ih =>
      rcases List.eq_nil_or_concat path' with rfl | ⟨q, c, rfl⟩
      · exact absurd htip (hloop h)
      · rw [List.concat_eq_append] at h' htip ⊢
        rw [tip_append_singleton, tip_append_singleton] at htip
        subst htip
        obtain ⟨hp, hparent⟩ := leads_append_singleton.mp h
        obtain ⟨hq, hparent'⟩ := leads_append_singleton.mp h'
        rw [ih hp hq (Option.some.inj (hparent.symm.trans hparent'))]

/-- Of two paths to the same end one is a last part of the other. -/
theorem Leads.comparable (h : Leads parent a path) (h' : Leads parent b path')
    (htip : tip a path = tip b path') :
    (∃ before, path = before ++ path' ∧ tip a before = b) ∨
      ∃ before, before ≠ [] ∧ path' = before ++ path ∧ tip b before = a := by
  induction path' using List.reverseRecOn generalizing path with
  | nil => exact Or.inl ⟨path, (List.append_nil path).symm, htip⟩
  | append_singleton q c ih =>
      rw [tip_append_singleton] at htip
      obtain ⟨hq, hparent⟩ := leads_append_singleton.mp h'
      rcases List.eq_nil_or_concat path with rfl | ⟨p, d, rfl⟩
      · exact Or.inr ⟨q ++ [c], by simp, (List.append_nil _).symm, by simpa using htip.symm⟩
      · rw [List.concat_eq_append] at h htip ⊢
        rw [tip_append_singleton] at htip
        subst htip
        obtain ⟨hp, hparent'⟩ := leads_append_singleton.mp h
        rcases ih hp hq (Option.some.inj (hparent'.symm.trans hparent)) with
          ⟨before, rfl, hbefore⟩ | ⟨before, hne, rfl, hbefore⟩
        · exact Or.inl ⟨before, List.append_assoc _ _ _, hbefore⟩
        · exact Or.inr ⟨before, hne, List.append_assoc _ _ _, hbefore⟩

/-- A path to the same end is a last part of the path from a root. -/
theorem Leads.suffix_of_root (hroot : parent a = none) (h : Leads parent a path)
    (h' : Leads parent b path') (htip : tip a path = tip b path') :
    ∃ before, path = before ++ path' ∧ tip a before = b := by
  rcases h.comparable h' htip with hsuffix | ⟨before, hne, rfl, hbefore⟩
  · exact hsuffix
  · obtain ⟨c, hparent⟩ := h'.exists_parent (List.mem_append_left path (hbefore ▸ tip_mem hne))
    rw [hroot] at hparent
    exact absurd hparent (by simp)

/-- Two paths from one node that share no node, where the end of the second
can be reached from the end of the first: the first one is empty. -/
theorem Leads.eq_nil_of_disjoint (hacyclic : Acyclic parent) (h : Leads parent a path)
    (h' : Leads parent a path') (hdisjoint : path.Disjoint path') {more : List α}
    (hmore : Leads parent (tip a path) more) (htip : tip (tip a path) more = tip a path') :
    path = [] ∧ more = path' := by
  have heq : path ++ more = path' :=
    Leads.unique hacyclic (leads_append.mpr ⟨h, hmore⟩) h' (tip_append.trans htip)
  have hnil : path = [] := by
    refine List.eq_nil_iff_forall_not_mem.mpr fun b hb ↦ hdisjoint hb ?_
    rw [← heq]
    exact List.mem_append_left _ hb
  rw [hnil, List.nil_append] at heq
  exact ⟨hnil, heq⟩

/-- A node that two paths from `a` share stands on both behind the same child
of `a`. -/
theorem Leads.head_eq_of_mem (hacyclic : Acyclic parent) (h : Leads parent a (b :: path))
    (h' : Leads parent a (c :: path')) {d : α} (hd : d ∈ b :: path) (hd' : d ∈ c :: path') :
    b = c := by
  obtain ⟨p, q, hp⟩ := List.append_of_mem hd
  obtain ⟨p', q', hp'⟩ := List.append_of_mem hd'
  rw [List.append_cons] at hp hp'
  rw [hp] at h
  rw [hp'] at h'
  have hinitial : p ++ [d] = p' ++ [d] :=
    (leads_append.mp h).1.unique hacyclic (leads_append.mp h').1 (by simp)
  have hhead : (b :: path).head? = (c :: path').head? := by
    rw [hp, hp', hinitial]
    simp
  simpa using hhead

/-- Two paths from one node fork at the lowest node that is above both their
ends. -/
theorem Leads.exists_fork (hacyclic : Acyclic parent) (h : Leads parent a path)
    (h' : Leads parent a path') :
    ∃ common before after, Leads parent common before ∧ tip common before = tip a path ∧
      Leads parent common after ∧ tip common after = tip a path' ∧ before.Disjoint after := by
  induction path generalizing a path' with
  | nil => exact ⟨a, [], path', leads_nil, rfl, h', rfl, by simp⟩
  | cons b path ih =>
      rcases path' with _ | ⟨c, path'⟩
      · exact ⟨a, b :: path, [], h, rfl, leads_nil, rfl, by simp⟩
      · by_cases heq : b = c
        · subst heq
          simpa using ih (leads_cons.mp h).2 (leads_cons.mp h').2
        · refine ⟨a, b :: path, c :: path', h, rfl, h', rfl, ?_⟩
          intro d hd hd'
          exact heq (Leads.head_eq_of_mem hacyclic h h' hd hd')

/-- `b` is `a` or descends from it. -/
def Below (parent : α → Option α) (a b : α) : Prop :=
  ∃ path, Leads parent a path ∧ tip a path = b

theorem below_refl : Below parent a a := ⟨[], leads_nil, rfl⟩

theorem Below.leads (h : Below parent a b) (hpath : Leads parent b path) :
    Below parent a (tip b path) := by
  obtain ⟨before, hbefore, rfl⟩ := h
  exact ⟨before ++ path, leads_append.mpr ⟨hbefore, hpath⟩, tip_append⟩

theorem Below.trans (hab : Below parent a b) (hbc : Below parent b c) : Below parent a c := by
  obtain ⟨path, hpath, rfl⟩ := hbc
  exact hab.leads hpath

theorem below_of_parent (h : parent b = some a) : Below parent a b := ⟨[b], by simpa using h, rfl⟩

/-- A node above the end of a path that is not on it is above its start. -/
theorem Below.above_start (h : Below parent a (tip b path)) (hpath : Leads parent b path)
    (hnot : a ∉ path) : Below parent a b := by
  obtain ⟨whole, hwhole, htip⟩ := h
  rcases hwhole.comparable hpath htip with ⟨before, rfl, hbefore⟩ |
    ⟨before, hne, rfl, hbefore⟩
  · exact ⟨before, (leads_append.mp hwhole).1, hbefore⟩
  · exact absurd (List.mem_append_left _ (hbefore ▸ tip_mem hne)) hnot

theorem Below.eq_or_descends (h : Below parent a b) : b = a ∨ Descends parent a b := by
  obtain ⟨path, hpath, rfl⟩ := h
  exact hpath.descends_tip

theorem Descends.below (h : Descends parent a b) : Below parent a b := by
  obtain ⟨path, hpath, htip, -⟩ := descends_iff.mp h
  exact ⟨path, hpath, htip⟩

/-- `c` stands on the path from `a` to `b`. -/
def OnPath (parent : α → Option α) (a b c : α) : Prop :=
  ∃ path, Leads parent a path ∧ tip a path = b ∧ c ∈ a :: path

theorem onPath_iff (hbelow : Below parent a c) : OnPath parent a b c ↔ Below parent c b := by
  constructor
  · rintro ⟨whole, hwhole, rfl, hmem⟩
    rcases List.mem_cons.mp hmem with rfl | hmem
    · exact ⟨whole, hwhole, rfl⟩
    · obtain ⟨before, after, heq⟩ := List.append_of_mem hmem
      rw [List.append_cons] at heq
      rw [heq, leads_append, tip_append_singleton] at hwhole
      rw [heq, tip_append, tip_append_singleton]
      exact ⟨after, hwhole.2, rfl⟩
  · rintro ⟨more, hmore, rfl⟩
    obtain ⟨path, hpath, rfl⟩ := hbelow
    refine ⟨path ++ more, leads_append.mpr ⟨hpath, hmore⟩, tip_append, ?_⟩
    rcases List.eq_nil_or_concat path with rfl | ⟨init, last, rfl⟩
    · exact List.mem_cons_self
    · simp

/-! ## Lists that descend -/

/-- Every node of the list descends from those before it, and `a` is the last
of them or descends from them all. -/
structure DescendsTo (parent : α → Option α) (nodes : List α) (a : α) : Prop where
  pairwise : nodes.Pairwise (Descends parent)
  above : ∀ b ∈ nodes, a = b ∨ Descends parent b a

theorem descendsTo_nil : DescendsTo parent [] a := ⟨.nil, by simp⟩

theorem DescendsTo.nodup (hacyclic : Acyclic parent) {nodes : List α}
    (h : DescendsTo parent nodes a) : nodes.Nodup :=
  nodup_of_pairwise_descends hacyclic h.pairwise

theorem DescendsTo.sublist {nodes nodes' : List α} (h : DescendsTo parent nodes a)
    (hsub : nodes'.Sublist nodes) : DescendsTo parent nodes' a where
  pairwise := h.pairwise.sublist hsub
  above b hb := h.above b (hsub.subset hb)

/-- Some nodes of a path from `a`, in their order, can be put behind a list
that descends to `a`. -/
theorem DescendsTo.append {nodes more : List α} (h : DescendsTo parent nodes a)
    (hpath : Leads parent a path) (hmore : more.Sublist path) :
    DescendsTo parent (nodes ++ more) (tip a path) where
  pairwise := by
    refine List.pairwise_append.mpr ⟨h.pairwise, hpath.pairwise.sublist hmore, ?_⟩
    intro b hb c hc
    have hdescends : Descends parent a c := hpath.descends (hmore.subset hc)
    rcases h.above b hb with rfl | hab
    · exact hdescends
    · exact hab.trans hdescends
  above b hb := by
    rcases List.mem_append.mp hb with hb | hb
    · rcases h.above b hb with rfl | hab
      · exact hpath.descends_tip
      · rcases hpath.descends_tip with htip | htip
        · rw [htip]
          exact Or.inr hab
        · exact Or.inr (hab.trans htip)
    · exact hpath.mem_descends_tip (hmore.subset hb)

end Ancestry
