import SubArchive.Backend
import SubArchive.ImportOperation

/-!
# Uncles

`Client::uncles` goes up from a block and collects at each ancestor the children
that are not on the way.
-/

namespace SubArchive

open Ancestry Results

/-- A blockchain that also knows the genesis block and the children of a
block. -/
structure BlockchainTree extends Blockchain where
  genesisHash : Hash
  children : Hash → Except Error (List Hash)

namespace BlockchainTree

def loadHeader (chain : BlockchainTree) (id : Hash) : Except Error Header := do
  match ← chain.header (.hash id) with
  | some header => return header
  | none => throw (.unknownBlock s!"{repr id}")

/-- The loop of `uncles`: the header of the next ancestor is loaded even when no
generation is left. -/
def collectUncles (chain : BlockchainTree) : ℕ → (currentHash ancestorHash : Hash) →
    (ancestor : Header) → Except Error (List Hash)
  | 0, _, _, _ => return []
  | generations + 1, currentHash, ancestorHash, ancestor => do
      let children ← chain.children ancestorHash
      let uncles := children.filter fun hash ↦ hash ≠ currentHash
      if chain.genesisHash = ancestorHash then return uncles
      let next ← chain.loadHeader ancestor.parentHash
      let more ← chain.collectUncles generations ancestorHash ancestor.parentHash next
      return uncles ++ more

def uncles (chain : BlockchainTree) (targetHash : Hash) (maxGeneration : BlockNumber) :
    Except Error (List Hash) := do
  if chain.genesisHash = targetHash then return []
  let current ← chain.loadHeader targetHash
  let ancestor ← chain.loadHeader current.parentHash
  chain.collectUncles maxGeneration targetHash current.parentHash ancestor

/-- `uncles` of `ProvideUncles`, by their headers. -/
def uncleHeaders (chain : BlockchainTree) (targetHash : Hash) (maxGeneration : BlockNumber) :
    Except Error (List Header) := do
  let uncles ← chain.uncles targetHash maxGeneration
  return uncles.filterMap fun hash ↦ (chain.header (.hash hash)).toOption.join

/-- The blockchain answers for the blocks of a tree. -/
structure IsTree (chain : BlockchainTree) (parent : Hash → Option Hash) : Prop where
  acyclic : Acyclic parent
  genesis : parent chain.genesisHash = none
  header : ∀ hash, hash = chain.genesisHash ∨ (parent hash).isSome → ∃ header,
    chain.header (.hash hash) = .ok (some header) ∧
      ∀ parentHash, parent hash = some parentHash → header.parentHash = parentHash
  children : ∀ hash, ∃ children, chain.children hash = .ok children ∧ children.Nodup ∧
    ∀ child, child ∈ children ↔ parent child = some hash

variable {chain : BlockchainTree} {parent : Hash → Option Hash} {path : List Hash}
  {current : Hash} {ancestor : Header}

theorem loadHeader_eq_ok {id : Hash} {header : Header} :
    chain.loadHeader id = .ok header ↔ chain.header (.hash id) = .ok (some header) := by
  unfold loadHeader
  rw [bind_eq_ok]
  constructor
  · rintro ⟨_ | header', hheader, h⟩
    · exact absurd h throw_ne_ok
    · obtain rfl := pure_eq_ok.mp h
      exact hheader
  · intro hheader
    exact ⟨some header, hheader, rfl⟩

theorem IsTree.exists_header_tip (htree : chain.IsTree parent)
    (hpath : Leads parent chain.genesisHash path) :
    ∃ header, chain.header (.hash (tip chain.genesisHash path)) = .ok (some header) := by
  have hknown : tip chain.genesisHash path = chain.genesisHash ∨
      (parent (tip chain.genesisHash path)).isSome := by
    rcases List.eq_nil_or_concat path with rfl | ⟨init, last, rfl⟩
    · exact Or.inl rfl
    · rw [List.concat_eq_append] at hpath ⊢
      rw [tip_append_singleton]
      exact Or.inr (by simp [(leads_append_singleton.mp hpath).2])
  obtain ⟨header, hheader, -⟩ := htree.header _ hknown
  exact ⟨header, hheader⟩

/-- `hash` is a child of one of the nearest ancestors of the block where the
path ends, and not on the path. -/
def IsUncle (parent : Hash → Option Hash) (genesis : Hash) (path : List Hash) (generations : ℕ)
    (hash : Hash) : Prop :=
  hash ∉ path ∧ ∃ ancestor ∈ (genesis :: path).dropLast.reverse.take generations,
    parent hash = some ancestor

/-- The children of the end of a path, but for one of them, are on no path from
its start. -/
theorem notMem_of_child {genesis hash : Hash} (htree : Acyclic parent)
    (hpath : Leads parent genesis path) (hgenesis : parent genesis = none)
    (hchild : parent hash = some (tip genesis path)) : hash ∉ genesis :: path := by
  intro hmem
  have hdescends : Descends parent (tip genesis path) hash := .single hchild
  rcases List.mem_cons.mp hmem with rfl | hmem
  · rw [hgenesis] at hchild
    exact absurd hchild (by simp)
  · rcases hpath.mem_descends_tip hmem with heq | hbelow
    · rw [heq] at hdescends
      exact htree hash hdescends
    · exact htree hash (hbelow.trans hdescends)

theorem end_notMem_ancestors {genesis last : Hash} {generations : ℕ} (htree : Acyclic parent)
    (hgenesis : parent genesis = none) (hpath : Leads parent genesis (path ++ [last])) :
    last ∉ (genesis :: path).reverse.take generations := by
  intro hmem
  obtain ⟨habove, hparent⟩ := leads_append_singleton.mp hpath
  exact notMem_of_child htree habove hgenesis hparent
    (List.mem_reverse.mp (List.mem_of_mem_take hmem))

theorem isUncle_succ {genesis hash : Hash} {generations : ℕ} (htree : Acyclic parent)
    (hgenesis : parent genesis = none) (hpath : Leads parent genesis (path ++ [current])) :
    IsUncle parent genesis (path ++ [current]) (generations + 1) hash ↔
      (hash ≠ current ∧ parent hash = some (tip genesis path)) ∨
        path ≠ [] ∧ IsUncle parent genesis path generations hash := by
  obtain ⟨habove, hcurrent⟩ := leads_append_singleton.mp hpath
  have hchild : parent hash = some (tip genesis path) → hash ∉ path := fun hparent hmem ↦
    notMem_of_child htree habove hgenesis hparent (List.mem_cons_of_mem _ hmem)
  rcases List.eq_nil_or_concat path with rfl | ⟨init, last, rfl⟩
  · simp [IsUncle]
  · rw [List.concat_eq_append] at hcurrent habove hchild ⊢
    rw [tip_append_singleton] at hcurrent hchild ⊢
    have htake : (genesis :: (init ++ [last] ++ [current])).dropLast.reverse.take
        (generations + 1) = last :: (genesis :: init).reverse.take generations := by
      rw [← List.cons_append, List.dropLast_concat]
      simp
    rw [IsUncle, htake, IsUncle, ← List.cons_append, List.dropLast_concat]
    simp only [List.mem_append, List.mem_cons, List.not_mem_nil, or_false, not_or,
      exists_eq_or_imp]
    simp only [List.mem_append, List.mem_singleton, not_or] at hchild
    constructor
    · rintro ⟨⟨hinit, hne⟩, hparent | hfar⟩
      · exact Or.inl ⟨hne, hparent⟩
      · exact Or.inr ⟨by simp, hinit, hfar⟩
    · rintro (⟨hne, hparent⟩ | ⟨-, hinit, ancestor, hancestor, hparent⟩)
      · exact ⟨⟨hchild hparent, hne⟩, Or.inl hparent⟩
      · refine ⟨⟨hinit, ?_⟩, Or.inr ⟨ancestor, hancestor, hparent⟩⟩
        rintro rfl
        obtain rfl : last = ancestor := Option.some.inj (hcurrent.symm.trans hparent)
        exact end_notMem_ancestors htree hgenesis habove hancestor

theorem collectUncles_genesis {children : List Hash} {generations : ℕ}
    (hchildren : chain.children chain.genesisHash = .ok children) :
    chain.collectUncles (generations + 1) current chain.genesisHash ancestor =
      .ok (children.filter fun hash ↦ hash ≠ current) := by
  simp [collectUncles, hchildren]

theorem collectUncles_above {children more : List Hash} {ancestorHash : Hash} {next : Header}
    {generations : ℕ} (hgenesis : chain.genesisHash ≠ ancestorHash)
    (hchildren : chain.children ancestorHash = .ok children)
    (hnext : chain.header (.hash ancestor.parentHash) = .ok (some next))
    (hmore : chain.collectUncles generations ancestorHash ancestor.parentHash next = .ok more) :
    chain.collectUncles (generations + 1) current ancestorHash ancestor =
      .ok (children.filter (fun hash ↦ hash ≠ current) ++ more) := by
  simp [collectUncles, hchildren, hgenesis, loadHeader_eq_ok.mpr hnext, hmore]

theorem collectUncles_spec (htree : chain.IsTree parent) (generations : ℕ)
    (hpath : Leads parent chain.genesisHash (path ++ [current]))
    (hancestor : chain.header (.hash (tip chain.genesisHash path)) = .ok (some ancestor)) :
    ∃ found, chain.collectUncles generations current (tip chain.genesisHash path) ancestor =
        .ok found ∧ found.Nodup ∧
      ∀ hash, hash ∈ found ↔ IsUncle parent chain.genesisHash (path ++ [current]) generations
        hash := by
  induction generations generalizing path current ancestor with
  | zero => exact ⟨[], rfl, .nil, by simp [IsUncle]⟩
  | succ generations ih =>
      obtain ⟨children, hchildren, hnodup, hmem⟩ := htree.children (tip chain.genesisHash path)
      have hsucc : ∀ hash, IsUncle parent chain.genesisHash (path ++ [current]) (generations + 1)
          hash ↔ (hash ≠ current ∧ parent hash = some (tip chain.genesisHash path)) ∨
            path ≠ [] ∧ IsUncle parent chain.genesisHash path generations hash :=
        fun _ ↦ isUncle_succ htree.acyclic htree.genesis hpath
      have hfiltered : ∀ hash, hash ∈ children.filter (fun hash ↦ hash ≠ current) ↔
          hash ≠ current ∧ parent hash = some (tip chain.genesisHash path) := by
        intro hash
        rw [List.mem_filter, hmem, decide_eq_true_iff, and_comm]
      obtain ⟨habove, -⟩ := leads_append_singleton.mp hpath
      rcases List.eq_nil_or_concat path with rfl | ⟨init, last, rfl⟩
      · refine ⟨children.filter fun hash ↦ hash ≠ current, ?_, hnodup.filter _, ?_⟩
        · exact collectUncles_genesis hchildren
        · intro hash
          rw [hfiltered, hsucc]
          simp
      · rw [List.concat_eq_append] at habove hancestor hchildren hfiltered hsucc ⊢
        rw [tip_append_singleton] at hancestor hchildren hfiltered hsucc ⊢
        obtain ⟨hinit, hparent⟩ := leads_append_singleton.mp habove
        have hgenesis : chain.genesisHash ≠ last := by
          rintro rfl
          rw [htree.genesis] at hparent
          exact absurd hparent (by simp)
        -- the header of the last block leads to the next ancestor
        have hup : ancestor.parentHash = tip chain.genesisHash init := by
          obtain ⟨header, hheader, hlinked⟩ := htree.header last (Or.inr (by simp [hparent]))
          obtain rfl : header = ancestor := by simpa [hheader] using hancestor
          exact hlinked _ hparent
        obtain ⟨next, hnext⟩ := htree.exists_header_tip hinit
        obtain ⟨more, hmore, hmoreNodup, hmoreMem⟩ := ih habove hnext
        rw [← hup] at hnext hmore
        refine ⟨_, collectUncles_above hgenesis hchildren hnext hmore, ?_, ?_⟩
        · refine (hnodup.filter _).append hmoreNodup ?_
          intro hash hnear hfar
          obtain ⟨-, hlast⟩ := (hfiltered hash).mp hnear
          obtain ⟨-, a, ha, hparent'⟩ := (hmoreMem hash).mp hfar
          obtain rfl : last = a := Option.some.inj (hlast.symm.trans hparent')
          rw [← List.cons_append, List.dropLast_concat] at ha
          exact end_notMem_ancestors htree.acyclic htree.genesis habove ha
        · intro hash
          rw [List.mem_append, hfiltered, hmoreMem, hsucc]
          simp

theorem uncles_spec (htree : chain.IsTree parent) (hpath : Leads parent chain.genesisHash path)
    (maxGeneration : BlockNumber) :
    ∃ found, chain.uncles (tip chain.genesisHash path) maxGeneration = .ok found ∧ found.Nodup ∧
      ∀ hash, hash ∈ found ↔ IsUncle parent chain.genesisHash path maxGeneration hash := by
  rcases List.eq_nil_or_concat path with rfl | ⟨init, last, rfl⟩
  · exact ⟨[], by simp [uncles], .nil, by simp [IsUncle]⟩
  · rw [List.concat_eq_append] at hpath ⊢
    rw [tip_append_singleton]
    obtain ⟨hinit, hparent⟩ := leads_append_singleton.mp hpath
    obtain ⟨current, hcurrent, hlinked⟩ := htree.header last (Or.inr (by simp [hparent]))
    obtain ⟨ancestor, hancestor⟩ := htree.exists_header_tip hinit
    obtain ⟨found, hfound, hnodup, hmem⟩ := collectUncles_spec htree maxGeneration hpath hancestor
    refine ⟨found, ?_, hnodup, hmem⟩
    have hgenesis : chain.genesisHash ≠ last := by
      rintro rfl
      rw [htree.genesis] at hparent
      exact absurd hparent (by simp)
    rw [← hlinked _ hparent] at hancestor hfound
    simp [uncles, hgenesis, loadHeader_eq_ok.mpr hcurrent, loadHeader_eq_ok.mpr hancestor, hfound]

theorem forall₂_headers {hashes : List Hash}
    (h : ∀ hash ∈ hashes, ∃ header, chain.header (.hash hash) = .ok (some header)) :
    List.Forall₂ (fun hash header ↦ chain.header (.hash hash) = .ok (some header)) hashes
      (hashes.filterMap fun hash ↦ (chain.header (.hash hash)).toOption.join) := by
  induction hashes with
  | nil => exact .nil
  | cons hash hashes ih =>
      obtain ⟨header, hheader⟩ := h hash List.mem_cons_self
      have hread : (chain.header (.hash hash)).toOption.join = some header := by
        rw [hheader]
        rfl
      simp only [List.filterMap_cons, hread]
      exact .cons hheader (ih fun hash hmem ↦ h hash (List.mem_cons_of_mem _ hmem))

/-- The uncles of a block are the children of its nearest ancestors that are
neither the block nor its ancestors, each of them once, and all their headers
are returned. -/
theorem uncles_iff (htree : chain.IsTree parent) (hpath : Leads parent chain.genesisHash path)
    (maxGeneration : BlockNumber) :
    ∃ found headers,
      chain.uncles (tip chain.genesisHash path) maxGeneration = .ok found ∧ found.Nodup ∧
      (∀ hash, hash ∈ found ↔ IsUncle parent chain.genesisHash path maxGeneration hash) ∧
      chain.uncleHeaders (tip chain.genesisHash path) maxGeneration = .ok headers ∧
      List.Forall₂ (fun hash header ↦ chain.header (.hash hash) = .ok (some header)) found
        headers := by
  obtain ⟨found, hfound, hnodup, hmem⟩ := uncles_spec htree hpath maxGeneration
  refine ⟨found, _, hfound, hnodup, hmem, bind_eq_ok.mpr ⟨found, hfound, rfl⟩,
    forall₂_headers ?_⟩
  intro hash hhash
  obtain ⟨-, ancestor, -, hparent⟩ := (hmem hash).mp hhash
  obtain ⟨header, hheader, -⟩ := htree.header hash (Or.inr (by simp [hparent]))
  exact ⟨header, hheader⟩

end BlockchainTree

namespace Sample

/-- Block one has a sibling, and so has block two. -/
def cousins (hash : Hash) : Option Hash :=
  if hash = [1, 5] ∨ hash = [1, 9] then some [0, 0]
  else if hash = [2, 6] ∨ hash = [2, 9] then some [1, 5]
  else if hash = [3, 7] then some [2, 6]
  else none

def cousinHashes : List Hash := [[0, 0], [1, 5], [1, 9], [2, 6], [2, 9], [3, 7]]

def cousinTree : BlockchainTree where
  header
    | .hash hash => .ok (if hash = [0, 0] ∨ (cousins hash).isSome then
        some ⟨(cousins hash).getD [0, 0], 0, [], [], []⟩ else none)
    | .number _ => .ok none
  body _ := .ok none
  justifications _ := .ok none
  number _ := .ok none
  hash _ := .ok none
  info := ⟨[3, 7], 3, [0, 0], 0⟩
  genesisHash := [0, 0]
  children hash := .ok (cousinHashes.filter fun child ↦ cousins child = some hash)

theorem mem_cousinHashes {hash parentHash : Hash} (h : cousins hash = some parentHash) :
    hash ∈ cousinHashes := by
  unfold cousins at h
  split_ifs at h with h₁ h₂ h₃
  · rcases h₁ with rfl | rfl <;> decide
  · rcases h₂ with rfl | rfl <;> decide
  · rw [h₃]
    decide

theorem cousinTree_isTree : cousinTree.IsTree cousins where
  acyclic := by
    refine acyclic_of_number (fun hash ↦ (hash.headD 0).toNat) fun a b h ↦ ?_
    have hall : ∀ hash ∈ cousinHashes, ∀ parentHash, cousins hash = some parentHash →
        (parentHash.headD 0).toNat < (hash.headD 0).toNat := by
      decide
    exact hall b (mem_cousinHashes h) a h
  genesis := rfl
  header hash hknown := by
    refine ⟨⟨(cousins hash).getD [0, 0], 0, [], [], []⟩, congrArg _ (if_pos hknown), ?_⟩
    intro parentHash hparent
    simp [hparent]
  children hash := by
    refine ⟨_, rfl, List.Nodup.filter _ (by decide), ?_⟩
    intro child
    rw [List.mem_filter, decide_eq_true_iff, and_iff_right_iff_imp]
    exact mem_cousinHashes

end Sample

/-- Two generations up from block three there is one uncle, three up there are
two. -/
theorem BlockchainTree.uncles_iff_cousins :
    Sample.cousinTree.uncles [3, 7] 2 = .ok [[2, 9]] ∧
    Sample.cousinTree.uncles [3, 7] 3 = .ok [[2, 9], [1, 9]] ∧
    ∀ hash, hash ∈ ([[2, 9], [1, 9]] : List Hash) ↔
      IsUncle Sample.cousins [0, 0] [[1, 5], [2, 6], [3, 7]] 3 hash := by
  have hpath : Leads Sample.cousins Sample.cousinTree.genesisHash [[1, 5], [2, 6], [3, 7]] := by
    decide
  obtain ⟨found, -, hfound, -, hmem, -⟩ := uncles_iff Sample.cousinTree_isTree hpath 3
  have hthree : Sample.cousinTree.uncles [3, 7] 3 = .ok [[2, 9], [1, 9]] := by
    decide +kernel
  obtain rfl : found = [[2, 9], [1, 9]] := Except.ok.inj (hfound.symm.trans hthree)
  exact ⟨by decide +kernel, hthree, hmem⟩

end SubArchive
