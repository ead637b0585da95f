import SubArchive.ImportOperation
import SubArchive.Reexecution

/-!
# Import and re-execution

`apply_block` stores a header with any number of post digests behind its own
items; `BlockExecutor` takes one item off again, whether it was a post digest
or not.
-/

namespace SubArchive

/-- The block that the call stores. -/
def OpCall.block? : OpCall → Option (Header × Option (List Bytes))
  | .setBlockData header body _ _ => some (header, body)
  | _ => none

/-- The storage changes that the call commits. -/
def OpCall.changes? : OpCall → Option Changes
  | .updateStorage changes => some changes
  | _ => none

theorem OpCall.filterMap_marks {α : Type} {calls : List OpCall} {view : OpCall → Option α}
    (hmarks : ∀ call ∈ calls, call.isMark = true)
    (hview : ∀ call : OpCall, call.isMark = true → view call = none) : calls.filterMap view = [] :=
  List.filterMap_eq_nil_iff.mpr fun call hcall ↦ hview call (hmarks call hcall)

theorem OpCall.block?_of_isMark {call : OpCall} (h : call.isMark = true) : call.block? = none := by
  cases call <;> simp_all [isMark, block?]

theorem OpCall.changes?_of_isMark {call : OpCall} (h : call.isMark = true) :
    call.changes? = none := by
  cases call <;> simp_all [isMark, changes?]

/-- An import stores one block, with its post digests, and commits the storage
changes it has. -/
theorem LockedClient.Imports.commits {client : LockedClient}
    {operation' middle : ClientImportOperation} {importBlock : BlockImportRequest}
    {newCache : List (Bytes × Bytes)} {forkChoice : ForkChoiceStrategy}
    {storages : StorageChanges} (hstorages : importBlock.storageChanges = some storages)
    (h : client.Imports .begin importBlock newCache forkChoice middle operation') :
    operation'.op.filterMap OpCall.block? = [(importBlock.post, importBlock.body)] ∧
      operation'.op.filterMap OpCall.changes? =
        [⟨storages.mainStorageChanges, storages.childStorageChanges⟩] := by
  obtain ⟨treeRoute, rfl⟩ := h.stored
  obtain ⟨parent, hparent, rfl⟩ := enactStorageChanges_cases (h.withChanges storages hstorages)
  obtain ⟨calls, hmarks, hop⟩ : ∃ calls : List OpCall, (∀ call ∈ calls, call.isMark = true) ∧
      parent.op = .beginStateOperation importBlock.post.parentHash :: calls := by
    rcases finalizeParent_cases hparent with ⟨-, rfl⟩ | ⟨-, calls, more, hfinalizes, rfl⟩
    · exact ⟨[], by simp, rfl⟩
    · exact ⟨calls, hfinalizes.marks, rfl⟩
  have hblocks := OpCall.filterMap_marks hmarks fun _ ↦ OpCall.block?_of_isMark
  have hchanges := OpCall.filterMap_marks hmarks fun _ ↦ OpCall.changes?_of_isMark
  cases client.offchainIndexingApi <;>
    simp [hop, hblocks, hchanges, headerCalls, List.filterMap_cons, OpCall.block?,
      OpCall.changes?]

/-- A block that comes without storage changes and gets some has been
executed. -/
theorem BlockImportRequest.executes_of_prepare {importBlock prepared : BlockImportRequest}
    {client : Client} {importingBlock : Option Hash} {storages : StorageChanges}
    (habsent : importBlock.storageChanges = none)
    (hprepare : importBlock.prepare client importingBlock = .ok (none, prepared))
    (hexecuted : prepared.storageChanges = some storages) :
    client.Executes importingBlock importBlock.toBlockImportParams storages := by
  obtain ⟨hprepared, -⟩ := prepare_cases hprepare
  rw [hexecuted] at hprepared
  refine ⟨habsent, ?_⟩
  unfold prepare at hprepare
  rcases hparams : client.prepareBlockStorageChanges importingBlock
    importBlock.toBlockImportParams with panic | error | ⟨result, params⟩
  · simp [hparams] at hprepare
  · simp [hparams] at hprepare
  · obtain ⟨rfl, hresult⟩ : result = none ∧
        ({ importBlock with toBlockImportParams := params } : BlockImportRequest) = prepared := by
      simpa [hparams] using hprepare
    rw [hprepared] at hresult
    obtain rfl :
        params = { importBlock.toBlockImportParams with storageChanges := some storages } :=
      congrArg toBlockImportParams hresult
    rfl

namespace Node

variable {node : Node} {w w₀ : World} {n : BlockNumber} {importingBlock : Option Hash}
  {importBlock prepared : BlockImportRequest} {storages : StorageChanges} {locked : LockedClient}
  {newCache : List (Bytes × Bytes)} {operation : ClientImportOperation} {signedBlock : SignedBlock}

/-- A block that was imported by execution and read back later is executed
again as it was, with the changes that were committed, exactly when it was
imported with one post digest or had no digest at all. -/
theorem reexecution_agrees_iff (habsent : importBlock.storageChanges = none)
    (hprepare : importBlock.prepare (node.client w₀) importingBlock = .ok (none, prepared))
    (hexecuted : prepared.storageChanges = some storages) {isNewBest : Bool}
    (happly : locked.applyBlock .begin prepared newCache = .ok (operation, .imported isNewBest))
    (hstored : operation.op.filterMap OpCall.block? =
      [(signedBlock.block.header, some signedBlock.block.extrinsics)])
    (hread : (archiveCore w).getBlock n = .ok (some signedBlock)) (hshared : w.main = w.readonly)
    (htries : ∀ id, w.main.changesTriesStateAtBlock id = .ok () ∧
      w₀.main.changesTriesStateAtBlock id = .ok ())
    (hstate : w.main.stateAt (.hash importBlock.header.parentHash) =
      w₀.main.stateAt (.hash importBlock.header.parentHash)) :
    (some signedBlock.blockExecute = importBlock.body.map (Block.mk importBlock.header) ∧
      ∃ storages' committed,
        node.executeBlockAndIntoStorageChanges w n = .ok (some (storages', signedBlock)) ∧
        operation.op.filterMap OpCall.changes? = [committed] ∧
        storages'.mainStorageChanges = committed.main) ↔
      importBlock.postDigests.length = 1 ∨
        importBlock.postDigests = [] ∧ importBlock.header.digest = [] := by
  obtain ⟨hprepared, -⟩ := BlockImportRequest.prepare_cases hprepare
  have hsupplied : prepared = { importBlock with storageChanges := some storages } := by
    rw [hprepared, hexecuted]
  have himport := BlockImportRequest.executes_of_prepare habsent hprepare hexecuted
  obtain ⟨hheader, hbody, hchanges⟩ : signedBlock.block.header = importBlock.post ∧
      importBlock.body = some signedBlock.block.extrinsics ∧
      operation.op.filterMap OpCall.changes? =
        [⟨storages.mainStorageChanges, storages.childStorageChanges⟩] := by
    rcases LockedClient.applyBlock_cases happly with ⟨houtcome, -⟩ |
      ⟨forkChoice, middle, -, himports⟩
    · simp at houtcome
    · obtain ⟨hblocks, hchanges⟩ := himports.commits hexecuted
      rw [hstored, hsupplied] at hblocks
      obtain ⟨hheader, hbody⟩ := Prod.mk.inj (List.singleton_inj.mp hblocks)
      exact ⟨hheader, hbody.symm, hchanges⟩
  have hexact : some signedBlock.blockExecute = importBlock.body.map (Block.mk importBlock.header) ↔
      importBlock.post.digestPop = importBlock.header := by
    rw [hbody, Option.map_some, Option.some.injEq, SignedBlock.blockExecute, hheader]
    simp [Block.ext_iff]
  rw [hexact, ← BlockImportParams.digestPop_post_iff]
  constructor
  · exact And.left
  · intro hpop
    refine ⟨hpop, storages, _, ?_, hchanges, rfl⟩
    have hreexecuted : signedBlock.blockExecute =
        ⟨importBlock.header, signedBlock.block.extrinsics⟩ := by
      rw [SignedBlock.blockExecute, hheader, hpop]
    exact executeBlockAndIntoStorageChanges_of_executes himport hreexecuted hbody hread
      ((htries _).1.trans (htries _).2.symm) hstate (hshared ▸ hstate)

end Node

namespace Sample

/-- The block at height one as it comes to the import, with post digests. -/
def blockOne (postDigests : List DigestItem) : BlockImportRequest where
  header := ⟨[0, 0], 1, [5], [], [.preRuntime [] []]⟩
  postDigests := postDigests
  body := some [[5], [1]]
  storageChanges := none
  allowMissingState := false
  origin := .networkBroadcast
  justifications := none
  finalized := false
  auxiliary := []
  forkChoice := some .longestChain
  intermediates := []
  importExisting := false

/-- The same with the storage changes of its execution. -/
def blockOneExecuted (postDigests : List DigestItem) : BlockImportRequest :=
  { blockOne postDigests with storageChanges := some ⟨[([1], some [5])], [], [5]⟩ }

/-- A client with the genesis block. -/
def genesisLocked : LockedClient where
  codec := codec
  offchainIndexingApi := false
  info := ⟨[0, 0], 0, [0, 0], 0⟩
  blockStatus hash := .ok (if hash = [0, 0] then .inChain else .unknown)
  lastFinalized := .ok [0, 0]
  treeRoute _ _ := .error (.backend "no route")
  accepts _ _ := .ok ()

def blockOneStored (postDigests : List DigestItem) : ChainBlock where
  signed := ⟨⟨(blockOne postDigests).post, [[5], [1]]⟩, none⟩
  state := state 5 1

theorem header_blockOneStored (postDigests : List DigestItem) :
    (blockOneStored postDigests).header =
      ⟨[0, 0], 1, [5], [], .preRuntime [] [] :: postDigests⟩ :=
  BlockImportParams.post_eq _

/-- The chain with the block as it is stored. -/
def branchOne (postDigests : List DigestItem) : Branch codec where
  blocks := [block 0 defaultHash 0 1, blockOneStored postDigests]
  numbered n b h := by
    rcases n with _ | _ | n
    · obtain rfl := Option.some.inj h
      rfl
    · obtain rfl := Option.some.inj h
      rw [header_blockOneStored]
    · simp at h
  linked n b child h hchild := by
    rcases n with _ | n
    · obtain rfl := Option.some.inj h
      obtain rfl := Option.some.inj hchild
      rw [header_blockOneStored]
      rfl
    · simp at hchild

end Sample

namespace Node

theorem reexecution_agrees_one_seal : ∃ operation storages committed,
    Sample.genesisLocked.applyBlock .begin (Sample.blockOneExecuted [.seal [] []]) [] =
      .ok (operation, .imported true) ∧
    Sample.strictNode.executeBlockAndIntoStorageChanges
      ((Sample.branchOne [.seal [] []]).world 0) 1 =
        .ok (some (storages, (Sample.blockOneStored [.seal [] []]).signed)) ∧
    operation.op.filterMap OpCall.changes? = [committed] ∧
    storages.mainStorageChanges = committed.main := by
  have hprepare : (Sample.blockOne [.seal [] []]).prepare
      (Sample.strictNode.client (Sample.world [])) none =
        .ok (none, Sample.blockOneExecuted [.seal [] []]) := by
    decide +kernel
  have happly : Sample.genesisLocked.applyBlock .begin (Sample.blockOneExecuted [.seal [] []]) [] =
      .ok (_, .imported true) := rfl
  have hread : (archiveCore ((Sample.branchOne [.seal [] []]).world 0)).getBlock 1 =
      .ok (some (Sample.blockOneStored [.seal [] []]).signed) := rfl
  have hiff := reexecution_agrees_iff rfl hprepare rfl happly rfl hread rfl
    (fun _ ↦ ⟨rfl, rfl⟩) rfl
  obtain ⟨-, storages, committed, hexecute, hchanges, heq⟩ := hiff.mpr (Or.inl rfl)
  exact ⟨_, storages, committed, happly, hexecute, hchanges, heq⟩

/-- A block that is imported with two post digests is executed again with one
of them, which the runtime does not accept, and its changes are lost. -/
theorem reexecution_differs : ∃ operation,
    (Sample.blockOne [.seal [] [], .seal [] []]).prepare
      (Sample.strictNode.client (Sample.world [])) none =
        .ok (none, Sample.blockOneExecuted [.seal [] [], .seal [] []]) ∧
    Sample.genesisLocked.applyBlock .begin
      (Sample.blockOneExecuted [.seal [] [], .seal [] []]) [] = .ok (operation, .imported true) ∧
    operation.op.filterMap OpCall.changes? = [⟨[([1], some [5])], []⟩] ∧
    Sample.strictNode.executeBlockAndIntoStorageChanges
      ((Sample.branchOne [.seal [] [], .seal [] []]).world 0) 1 =
        .ok (some (⟨[], [], [0]⟩, (Sample.blockOneStored [.seal [] [], .seal [] []]).signed)) ∧
    (Sample.blockOneStored [.seal [] [], .seal [] []]).signed.blockExecute ≠
      ⟨(Sample.blockOne []).header, [[5], [1]]⟩ := by
  refine ⟨_, ?_, rfl, rfl, ?_, ?_⟩
  · decide +kernel
  · decide +kernel
  · decide

end Node

end SubArchive
