import SubArchive.BlockExecutor

/-!
# Importing by execution

`Client::prepare_block_storage_changes` executes a block that comes with a body
and without storage changes.  Unlike the block executor it returns the error of
the execution and compares the root with the one of the header.
-/

namespace SubArchive

open Results

inductive BlockStatus where
  | queued
  | inChainWithState
  | inChainPruned
  | unknown
  | knownBad
deriving DecidableEq, Repr

inductive ImportResult where
  | knownBad
  | unknownParent
  | missingState
deriving DecidableEq, Repr

structure BlockImportParams where
  header : Header
  postDigests : List DigestItem
  body : Option (List Bytes)
  storageChanges : Option StorageChanges
  allowMissingState : Bool
deriving DecidableEq, Repr

/-- The header that `apply_block` stores. -/
def BlockImportParams.post (importBlock : BlockImportParams) : Header :=
  importBlock.postDigests.foldl Header.digestPush importBlock.header

/-- The post digests come behind the items of the header. -/
theorem BlockImportParams.post_eq (importBlock : BlockImportParams) :
    importBlock.post = { importBlock.header with
      digest := importBlock.header.digest ++ importBlock.postDigests } := by
  have hfold : ∀ (items : List DigestItem) (header : Header),
      items.foldl Header.digestPush header = { header with digest := header.digest ++ items } := by
    intro items
    induction items with
    | nil => intro header; simp
    | cons item items ih => intro header; rw [List.foldl_cons, ih]; simp [Header.digestPush]
  exact hfold importBlock.postDigests importBlock.header

@[simp] theorem BlockImportParams.post_parentHash (importBlock : BlockImportParams) :
    importBlock.post.parentHash = importBlock.header.parentHash := by
  rw [post_eq]

/-- Taking one item off the stored header gives the imported one back exactly
when one post digest was put there, or there was nothing to take off. -/
theorem BlockImportParams.digestPop_post_iff (importBlock : BlockImportParams) :
    importBlock.post.digestPop = importBlock.header ↔ importBlock.postDigests.length = 1 ∨
      importBlock.postDigests = [] ∧ importBlock.header.digest = [] := by
  have hdigest : importBlock.post.digestPop = importBlock.header ↔
      (importBlock.header.digest ++ importBlock.postDigests).dropLast =
        importBlock.header.digest := by
    rw [post_eq, Header.digestPop]
    constructor
    · intro h
      exact congrArg Header.digest h
    · intro h
      simp only [h]
  rw [hdigest]
  rcases List.eq_nil_or_concat importBlock.postDigests with hnil | ⟨init, last, hconcat⟩
  · rw [hnil, List.append_nil]
    constructor
    · intro h
      have hlength := congrArg List.length h
      rw [List.length_dropLast] at hlength
      exact Or.inr ⟨rfl, List.eq_nil_of_length_eq_zero (by omega)⟩
    · rintro (h | ⟨-, h⟩)
      · simp at h
      · simp [h]
  · rw [hconcat, List.concat_eq_append, ← List.append_assoc, List.dropLast_concat]
    constructor
    · intro h
      have hinit : init = [] := List.append_right_eq_self.mp h
      exact Or.inl (by simp [hinit])
    · rintro (h | ⟨h, -⟩)
      · have hinit : init = [] := List.eq_nil_of_length_eq_zero (by simpa using h)
        rw [hinit, List.append_nil]
      · simp at h

/-- Every header is stored by an import with at most one post digest. -/
theorem Header.exists_post (header : Header) (body : Option (List Bytes)) :
    ∃ postDigests : List DigestItem,
      header = BlockImportParams.post ⟨header.digestPop, postDigests, body, none, false⟩ ∧
      (postDigests.length = 1 ∨ postDigests = [] ∧ header.digestPop.digest = []) := by
  obtain ⟨parentHash, number, stateRoot, extrinsicsRoot, digest⟩ := header
  rcases List.eq_nil_or_concat digest with rfl | ⟨init, last, rfl⟩
  · exact ⟨[], rfl, Or.inr ⟨rfl, rfl⟩⟩
  · refine ⟨[last], ?_, Or.inl rfl⟩
    rw [BlockImportParams.post_eq]
    simp [digestPop]

namespace Client

def blockStatus (client : Client) (importingBlock : Option Hash) (id : BlockId) :
    Except Error BlockStatus :=
  let chain := client.backend.blockchain
  let lookup : Except Error BlockStatus := do
    let hashAndNumber ← match id with
      | .hash hash => (·.map fun n ↦ (hash, n)) <$> chain.number hash
      | .number n => (·.map fun hash ↦ (hash, n)) <$> chain.hash n
    match hashAndNumber with
    | some (hash, number) =>
        return if client.backend.haveStateAt hash number then .inChainWithState else .inChainPruned
    | none => return .unknown
  match id with
  | .hash hash => if importingBlock = some hash then .ok .queued else lookup
  | .number _ => lookup

/-- The branch of `prepare_block_storage_changes` that executes the block. -/
def executeForImport (client : Client) (importBlock : BlockImportParams) (body : List Bytes) :
    Except Panic (Except Error (Option ImportResult × BlockImportParams)) := do
  let parent := BlockId.hash importBlock.header.parentHash
  let (result, runtimeApi) ←
    MockRuntimeApiImpl.executeBlockWithContext client parent ⟨importBlock.header, body⟩ .new
  match result with
  | .error error => return .error (.runtimeApiError error)
  | .ok _ =>
      match client.backend.stateAt parent with
      | .error error => return .error error
      | .ok state =>
          match client.backend.changesTriesStateAtBlock parent with
          | .error error => return .error error
          | .ok () =>
              match (runtimeApi.intoStorageChanges state).1 with
              | .error message => return .error (.storage message)
              | .ok storages =>
                  if importBlock.header.stateRoot ≠ storages.transactionStorageRoot then
                    return .error .invalidStateRoot
                  else return .ok (none, { importBlock with storageChanges := some storages })

def prepareBlockStorageChanges (client : Client) (importingBlock : Option Hash)
    (importBlock : BlockImportParams) :
    Except Panic (Except Error (Option ImportResult × BlockImportParams)) :=
  match client.blockStatus importingBlock (.hash importBlock.header.parentHash) with
  | .error error => .ok (.error error)
  | .ok .unknown => .ok (.ok (some .unknownParent, importBlock))
  | .ok .knownBad => .ok (.ok (some .knownBad, importBlock))
  | .ok .inChainPruned =>
      if importBlock.allowMissingState then
        .ok (.ok (none, { importBlock with storageChanges := none }))
      else .ok (.ok (some .missingState, importBlock))
  | .ok .inChainWithState | .ok .queued =>
      match importBlock.storageChanges, importBlock.body with
      | some _, _ => .ok (.ok (none, importBlock))
      | none, some body => client.executeForImport importBlock body
      | none, none => .ok (.ok (none, importBlock))

variable {client : Client} {importingBlock : Option Hash} {importBlock : BlockImportParams}
  {storages : StorageChanges}

/-- The import goes through the branch that executes the block, with these
storage changes. -/
structure Executes (client : Client) (importingBlock : Option Hash)
    (importBlock : BlockImportParams) (storages : StorageChanges) : Prop where
  absent : importBlock.storageChanges = none
  prepared : client.prepareBlockStorageChanges importingBlock importBlock =
    .ok (.ok (none, { importBlock with storageChanges := some storages }))

theorem executeForImport_eq_ok {body : List Bytes} {importBlock' : BlockImportParams}
    (h : client.executeForImport importBlock body = .ok (.ok (none, importBlock'))) :
    ∃ bytes state storages,
      let parent := BlockId.hash importBlock.header.parentHash
      let outcome :=
        MockRuntimeApiImpl.executeBlockOutcome client parent ⟨importBlock.header, body⟩
      outcome.1 = .ok bytes ∧ client.backend.stateAt parent = .ok state ∧
        ((MockRuntimeApiImpl.new.settle outcome).intoStorageChanges state).1 = .ok storages ∧
        storages.transactionStorageRoot = importBlock.header.stateRoot ∧
        importBlock' = { importBlock with storageChanges := some storages } := by
  unfold executeForImport at h
  simp only [MockRuntimeApiImpl.executeBlockWithContext_new, ok_bind, pure_eq] at h
  split at h
  · simp at h
  · rename_i bytes hbytes
    split at h
    · simp at h
    · rename_i state hstate
      split at h
      · simp at h
      · split at h
        · simp at h
        · rename_i storages hstorages
          split at h
          · simp at h
          · rename_i hroot
            simp only [Except.ok.injEq, Prod.mk.injEq, true_and] at h
            exact ⟨bytes, state, storages, hbytes, hstate, hstorages, (not_not.mp hroot).symm,
              h.symm⟩

/-- A block whose execution reaches the root of its header is imported while
its parent is. -/
theorem executes_of_outcome {bytes : Bytes} {extrinsics : List Bytes} {state : StateBackend}
    (habsent : importBlock.storageChanges = none)
    (hbody : importBlock.body = some extrinsics)
    (htries : client.backend.changesTriesStateAtBlock (.hash importBlock.header.parentHash) =
      .ok ())
    (hstate : client.backend.stateAt (.hash importBlock.header.parentHash) = .ok state)
    (houtcome : (MockRuntimeApiImpl.executeBlockOutcome client (.hash importBlock.header.parentHash)
      ⟨importBlock.header, extrinsics⟩).1 = .ok bytes)
    (hstorages : ((MockRuntimeApiImpl.new.settle (MockRuntimeApiImpl.executeBlockOutcome client
      (.hash importBlock.header.parentHash)
      ⟨importBlock.header, extrinsics⟩)).intoStorageChanges state).1 = .ok storages)
    (hroot : storages.transactionStorageRoot = importBlock.header.stateRoot) :
    client.Executes (some importBlock.header.parentHash) importBlock storages := by
  refine ⟨habsent, ?_⟩
  have hexecute : client.executeForImport importBlock extrinsics =
      .ok (.ok (none, { importBlock with storageChanges := some storages })) := by
    simp [executeForImport, MockRuntimeApiImpl.executeBlockWithContext_new, houtcome, hstate,
      htries, hstorages, hroot]
  simp [prepareBlockStorageChanges, blockStatus, habsent, hbody, hexecute]

theorem Executes.checked (h : client.Executes importingBlock importBlock storages) :
    ∃ body bytes state,
      let parent := BlockId.hash importBlock.header.parentHash
      let outcome :=
        MockRuntimeApiImpl.executeBlockOutcome client parent ⟨importBlock.header, body⟩
      importBlock.body = some body ∧ outcome.1 = .ok bytes ∧
        client.backend.stateAt parent = .ok state ∧
        ((MockRuntimeApiImpl.new.settle outcome).intoStorageChanges state).1 = .ok storages ∧
        storages.transactionStorageRoot = importBlock.header.stateRoot := by
  obtain ⟨habsent, hprepared⟩ := h
  have hexecutes : ∃ body, importBlock.body = some body ∧
      client.executeForImport importBlock body =
        .ok (.ok (none, { importBlock with storageChanges := some storages })) := by
    obtain ⟨header, postDigests, body, _, allowMissingState⟩ := importBlock
    cases habsent
    unfold prepareBlockStorageChanges at hprepared
    rcases hstatus : client.blockStatus importingBlock (.hash header.parentHash) with
      error | status
    · simp [hstatus] at hprepared
    · rcases body with _ | body <;> cases status <;>
        simp only [hstatus, Except.ok.injEq, Prod.mk.injEq, reduceCtorEq, false_and,
          BlockImportParams.mk.injEq, and_false] at hprepared
      · split at hprepared <;> simp at hprepared
      · exact ⟨body, rfl, hprepared⟩
      · exact ⟨body, rfl, hprepared⟩
      · split at hprepared <;> simp at hprepared
  obtain ⟨body, hbody, hexecute⟩ := hexecutes
  obtain ⟨bytes, state, storages', hbytes, hstate, hstorages, hroot, heq⟩ :=
    executeForImport_eq_ok hexecute
  obtain rfl : storages = storages' := by
    simpa using congrArg BlockImportParams.storageChanges heq
  exact ⟨body, bytes, state, hbody, hbytes, hstate, hstorages, hroot⟩

end Client

theorem Node.executeBlockOutcome_of_executed (node : Node) {w w₀ : World} {header : Header}
    {signedBlock : SignedBlock}
    (hexecuted : signedBlock.blockExecute = ⟨header, signedBlock.block.extrinsics⟩)
    (htries : w.main.changesTriesStateAtBlock (.hash header.parentHash) =
      w₀.main.changesTriesStateAtBlock (.hash header.parentHash))
    (hmain : w.main.stateAt (.hash header.parentHash) =
      w₀.main.stateAt (.hash header.parentHash)) :
    MockRuntimeApiImpl.executeBlockOutcome (node.client w)
        (.hash signedBlock.block.header.parentHash) signedBlock.blockExecute =
      MockRuntimeApiImpl.executeBlockOutcome (node.client w₀) (.hash header.parentHash)
        ⟨header, signedBlock.block.extrinsics⟩ := by
  have hparent : signedBlock.block.header.parentHash = header.parentHash :=
    congrArg (fun block ↦ block.header.parentHash) hexecuted
  rw [hparent, hexecuted]
  exact LocalCallExecutor.callStateMachine_congr (a := (node.client w).executor)
    (b := (node.client w₀).executor) rfl rfl htries hmain _ _ _

/-- A block that is re-executed with the header and the body that the import
executed, on a backend that has the same state for its parent, has the storage
changes of the import. -/
theorem Node.executeBlockAndIntoStorageChanges_of_executes {node : Node} {w w₀ : World}
    {n : BlockNumber} {importingBlock : Option Hash} {importBlock : BlockImportParams}
    {storages : StorageChanges} {signedBlock : SignedBlock}
    (himport : (node.client w₀).Executes importingBlock importBlock storages)
    (hexecuted : signedBlock.blockExecute = ⟨importBlock.header, signedBlock.block.extrinsics⟩)
    (hbody : importBlock.body = some signedBlock.block.extrinsics)
    (hblock : (archiveCore w).getBlock n = .ok (some signedBlock))
    (htries : w.main.changesTriesStateAtBlock (.hash importBlock.header.parentHash) =
      w₀.main.changesTriesStateAtBlock (.hash importBlock.header.parentHash))
    (hmain : w.main.stateAt (.hash importBlock.header.parentHash) =
      w₀.main.stateAt (.hash importBlock.header.parentHash))
    (hreadonly : w.readonly.stateAt (.hash importBlock.header.parentHash) =
      w₀.main.stateAt (.hash importBlock.header.parentHash)) :
    node.executeBlockAndIntoStorageChanges w n = .ok (some (storages, signedBlock)) := by
  obtain ⟨body, bytes, state, hbody', hbytes, hstate, hstorages, -⟩ := himport.checked
  obtain rfl : signedBlock.block.extrinsics = body := by simpa [hbody] using hbody'
  have hparent : signedBlock.block.header.parentHash = importBlock.header.parentHash :=
    congrArg (fun block ↦ block.header.parentHash) hexecuted
  rw [executeBlockAndIntoStorageChanges_eq_some, replayed,
    node.executeBlockOutcome_of_executed hexecuted htries hmain, hparent, hreadonly]
  exact ⟨hblock, state, hstate, hstorages⟩

/-- A stored block is re-executed with the header that was imported when there
is one digest item behind that. -/
theorem SignedBlock.blockExecute_of_post {signedBlock : SignedBlock}
    {importBlock : BlockImportParams} (hheader : signedBlock.block.header = importBlock.post)
    (hdigest : importBlock.postDigests.length = 1 ∨
      importBlock.postDigests = [] ∧ importBlock.header.digest = []) :
    signedBlock.blockExecute = ⟨importBlock.header, signedBlock.block.extrinsics⟩ := by
  rw [blockExecute, hheader, importBlock.digestPop_post_iff.mpr hdigest]

/-- A block that was imported by execution and stored with one post digest is
re-executed as it was imported, on a backend that has the same state for its
parent. -/
theorem Node.executeBlockAndIntoStorageChanges_of_import {node : Node} {w w₀ : World}
    {n : BlockNumber} {importingBlock : Option Hash} {importBlock : BlockImportParams}
    {storages : StorageChanges} {item : DigestItem} {signedBlock : SignedBlock}
    (himport : (node.client w₀).Executes importingBlock importBlock storages)
    (hitem : importBlock.postDigests = [item])
    (hheader : signedBlock.block.header = importBlock.post)
    (hbody : importBlock.body = some signedBlock.block.extrinsics)
    (hblock : (archiveCore w).getBlock n = .ok (some signedBlock))
    (htries : w.main.changesTriesStateAtBlock (.hash importBlock.header.parentHash) =
      w₀.main.changesTriesStateAtBlock (.hash importBlock.header.parentHash))
    (hmain : w.main.stateAt (.hash importBlock.header.parentHash) =
      w₀.main.stateAt (.hash importBlock.header.parentHash))
    (hreadonly : w.readonly.stateAt (.hash importBlock.header.parentHash) =
      w₀.main.stateAt (.hash importBlock.header.parentHash)) :
    node.executeBlockAndIntoStorageChanges w n = .ok (some (storages, signedBlock)) := by
  have hexecuted := SignedBlock.blockExecute_of_post hheader (Or.inl (by rw [hitem]; rfl))
  exact executeBlockAndIntoStorageChanges_of_executes himport hexecuted hbody hblock htries hmain
    hreadonly

end SubArchive
