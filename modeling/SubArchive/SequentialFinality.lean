import SubArchive.Chain
import SubArchive.ImportOperation

/-!
# Finality by imports

An import of a final block marks the ancestors of the block as finalized in the
branch for blocks with storage changes, and the block itself in any case.
-/

namespace SubArchive

open Ancestry

/-- What `sp_blockchain::tree_route` returns for two blocks of a tree. -/
structure TreeRoute.IsRoute (parent : Hash → Option Hash) (route : TreeRoute)
    (source target : Hash) : Prop where
  retracted : Leads parent route.common route.retracted.reverse
  source : tip route.common route.retracted.reverse = source
  enacted : Leads parent route.common route.enacted
  target : tip route.common route.enacted = target

/-- A route that retracts nothing leads from its source to its target. -/
theorem TreeRoute.IsRoute.leads {parent : Hash → Option Hash} {route : TreeRoute}
    {source target : Hash} (h : route.IsRoute parent source target)
    (hretracted : route.retracted = []) :
    Leads parent source route.enacted ∧ tip source route.enacted = target := by
  have hcommon : route.common = source := by simpa [hretracted] using h.source
  rw [← hcommon]
  exact ⟨h.enacted, h.target⟩

namespace LockedClient

variable {client : Client} {locked : LockedClient} {importBlock prepared : BlockImportRequest}
  {importingBlock : Option Hash} {newCache : List (Bytes × Bytes)}
  {operation : ClientImportOperation} {parent : Hash → Option Hash} {lastFinalized : Hash}

/-- Finalizing a block marks the path from the last finalized block to it. -/
theorem Finalizes.leads {block : Hash} {notify : Bool} {calls : List OpCall} {more : List Hash}
    (h : locked.Finalizes block notify calls more)
    (hlast : ∀ hash, locked.lastFinalized = .ok hash → hash = lastFinalized)
    (hroutes : ∀ source target route, locked.treeRoute source target = .ok route →
      route.IsRoute parent source target) :
    Leads parent lastFinalized (finals locked.codec calls) ∧
      tip lastFinalized (finals locked.codec calls) = block := by
  rcases h.route with ⟨hblock, rfl⟩ | ⟨source, route, hsource, hroute, hretracted, -, hfinals⟩
  · rw [hlast block hblock]
    exact ⟨leads_nil, rfl⟩
  · obtain rfl := hlast source hsource
    rw [hfinals]
    exact (hroutes source block route hroute).leads hretracted

/-- An import that makes its block final has marked the path from the last
finalized block down to the block, each block once, exactly when it enacts the
state or the last finalized block is the parent. -/
theorem final_after_ancestors_iff (hacyclic : Acyclic parent)
    (hfinalized : importBlock.finalized = true)
    (hprepare : importBlock.prepare client importingBlock = .ok (none, prepared)) {isNewBest : Bool}
    (happly : locked.applyBlock .begin prepared newCache = .ok (operation, .imported isNewBest))
    (hlast : ∀ hash, locked.lastFinalized = .ok hash → hash = lastFinalized)
    (hroutes : ∀ source target route, locked.treeRoute source target = .ok route →
      route.IsRoute parent source target)
    (hparent : parent (locked.codec.hashHeader importBlock.post) =
      some importBlock.header.parentHash) :
    ∃ marked, finals locked.codec operation.op =
        marked ++ [locked.codec.hashHeader importBlock.post] ∧
      (Leads parent lastFinalized (marked ++ [locked.codec.hashHeader importBlock.post]) ∧
          (marked ++ [locked.codec.hashHeader importBlock.post]).Nodup ↔
        importBlock.EnactsState client importingBlock ∨
          importBlock.header.parentHash = lastFinalized) := by
  obtain ⟨hprepared, henacts⟩ := BlockImportRequest.prepare_cases hprepare
  have hpost : prepared.post = importBlock.post := by rw [hprepared]; rfl
  have hheader : prepared.header = importBlock.header := by rw [hprepared]
  have hfinal : prepared.finalized = true := by rw [hprepared]; exact hfinalized
  rcases applyBlock_cases happly with ⟨houtcome, -⟩ | ⟨forkChoice, middle, -, himports⟩
  · simp at houtcome
  · obtain ⟨marked, queued, hfinals, -, -, hmarked⟩ := himports.finals
    rw [if_pos hfinal, hpost] at hfinals
    refine ⟨marked, hfinals, ?_⟩
    rw [and_iff_left_of_imp (Leads.nodup hacyclic), leads_append_singleton, hparent,
      Option.some.injEq, ← henacts]
    rcases hmarked with ⟨hnone | hnot, rfl⟩ | ⟨hsome, -, calls, hfinalizes, rfl⟩
    · simp [hnone]
    · rw [hfinal] at hnot
      exact absurd hnot (by decide)
    · obtain ⟨hleads, htip⟩ := hfinalizes.leads hlast hroutes
      rw [BlockImportParams.post_parentHash, hheader] at htip
      exact iff_of_true ⟨hleads, htip.symm⟩ (Or.inl hsome)

end LockedClient

namespace Sample

/-- The tree of the chain with the values 5, 6 and 7. -/
def parent (hash : Hash) : Option Hash :=
  if hash = [1, 5] then some [0, 0]
  else if hash = [2, 6] then some [1, 5]
  else if hash = [3, 7] then some [2, 6]
  else none

theorem acyclic_parent : Acyclic parent := by
  refine acyclic_of_number (fun hash ↦ (hash.headD 0).toNat) fun a b h ↦ ?_
  unfold parent at h
  split_ifs at h with h₁ h₂ h₃
  · obtain rfl := Option.some.inj h
    rw [h₁]
    decide
  · obtain rfl := Option.some.inj h
    rw [h₂]
    decide
  · obtain rfl := Option.some.inj h
    rw [h₃]
    decide

/-- A client with the first three blocks, the first of which is final. -/
def locked : LockedClient where
  codec := codec
  offchainIndexingApi := false
  info := ⟨[2, 6], 2, [0, 0], 0⟩
  blockStatus hash := .ok (if hash = [3, 7] then .unknown else .inChain)
  lastFinalized := .ok [0, 0]
  treeRoute source target :=
    if source = [0, 0] ∧ target = [2, 6] then .ok ⟨[], [0, 0], [[1, 5], [2, 6]]⟩
    else if source = [2, 6] ∧ target = [2, 6] then .ok ⟨[], [2, 6], []⟩
    else .error (.backend "no route")
  accepts _ _ := .ok ()

theorem locked_isRoute (source target : Hash) (route : TreeRoute)
    (h : locked.treeRoute source target = .ok route) : route.IsRoute parent source target := by
  unfold locked at h
  simp only at h
  split at h
  · rename_i heq
    obtain ⟨rfl, rfl⟩ := heq
    obtain rfl := Except.ok.inj h
    exact ⟨leads_nil, rfl, by simp [parent], rfl⟩
  · split at h
    · rename_i heq
      obtain ⟨rfl, rfl⟩ := heq
      obtain rfl := Except.ok.inj h
      exact ⟨leads_nil, rfl, leads_nil, rfl⟩
    · simp at h

/-- The import of a final block on top, with or without storage changes. -/
def finalBlock (storageChanges : Option StorageChanges) : BlockImportRequest where
  header := ⟨[2, 6], 3, [7], [], []⟩
  postDigests := []
  body := none
  storageChanges := storageChanges
  allowMissingState := false
  origin := .networkBroadcast
  justifications := some [⟨[1], []⟩]
  finalized := true
  auxiliary := []
  forkChoice := some .longestChain
  intermediates := []
  importExisting := false

def threeBlocks : Client := node.client (world [(5, 1), (6, 1)])

end Sample

namespace LockedClient

theorem final_after_ancestors_two : ∃ operation,
    Sample.locked.applyBlock .begin (Sample.finalBlock (some ⟨[], [], [7]⟩)) [] =
      .ok (operation, .imported true) ∧
    Leads Sample.parent [0, 0] (finals Sample.codec operation.op) ∧
    (finals Sample.codec operation.op).Nodup := by
  have hprepare : (Sample.finalBlock (some ⟨[], [], [7]⟩)).prepare Sample.threeBlocks none =
      .ok (none, Sample.finalBlock (some ⟨[], [], [7]⟩)) := by
    decide +kernel
  have happly : Sample.locked.applyBlock .begin (Sample.finalBlock (some ⟨[], [], [7]⟩)) [] =
      .ok (_, .imported true) := rfl
  obtain ⟨marked, hfinals, hiff⟩ := final_after_ancestors_iff Sample.acyclic_parent rfl hprepare
    happly (fun hash hlast ↦ (Except.ok.inj hlast).symm) Sample.locked_isRoute rfl
  have henacts : (Sample.finalBlock (some ⟨[], [], [7]⟩)).EnactsState Sample.threeBlocks none :=
    ⟨Or.inl (by decide +kernel), Or.inl rfl⟩
  refine ⟨_, happly, ?_⟩
  have hcodec : finals Sample.codec = finals Sample.locked.codec := rfl
  rw [hcodec, hfinals]
  exact hiff.mpr (Or.inl henacts)

/-- A final block that comes as a bare header is made final alone, two blocks
above the last finalized one. -/
theorem final_without_ancestors : ∃ operation,
    (Sample.finalBlock none).prepare Sample.threeBlocks none =
      .ok (none, Sample.finalBlock none) ∧
    Sample.locked.applyBlock .begin (Sample.finalBlock none) [] =
      .ok (operation, .imported true) ∧
    .setBlockData (Sample.finalBlock none).post none (some [⟨[1], []⟩]) .final ∈ operation.op ∧
    Sample.locked.lastFinalized = .ok [0, 0] ∧
    finals Sample.codec operation.op = [[3, 7]] ∧
    ¬ Leads Sample.parent [0, 0] (finals Sample.codec operation.op) := by
  have happly : Sample.locked.applyBlock .begin (Sample.finalBlock none) [] =
      .ok (_, .imported true) := rfl
  refine ⟨_, by decide +kernel, happly, by decide, rfl, rfl, ?_⟩
  intro hleads
  exact absurd (leads_cons.mp hleads).1 (by decide)

end LockedClient

end SubArchive
