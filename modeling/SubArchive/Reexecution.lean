import SubArchive.Chain
import SubArchive.Import

/-!
# Re-execution

`BlockExecutor` drops the result of the execution and does not look at the
root.  What is sent is right for a block that an import by execution has
checked, stored with one digest item behind its header; a block that the
runtime refuses is sent all the same.
-/

namespace SubArchive

namespace Node

variable {node : Node} {world : World} {cache : RuntimeVersionCache} {n : BlockNumber}

/-- The archive core's backend has what a message is made of. -/
structure AtHand (node : Node) (world : World) (cache : RuntimeVersionCache) (n : BlockNumber)
    (signedBlock : SignedBlock) (parentState : StateBackend) : Prop where
  block : (archiveCore world).getBlock n = .ok (some signedBlock)
  parent : world.readonly.stateAt (.hash signedBlock.block.header.parentHash) = .ok parentState
  version : cache.Answers node.reader world.readonly (.number n)

/-- The block is one that an import executes and accepts on the parent's state,
and stores with one digest item behind its header or with no digest at all; the
client's backend has that state. -/
def ImportedOn (node : Node) (world : World) (signedBlock : SignedBlock)
    (parentState : StateBackend) : Prop :=
  let parent := BlockId.hash signedBlock.block.header.parentHash
  (∃ w₀ importingBlock importBlock storages,
    (node.client w₀).Executes importingBlock importBlock storages ∧
      signedBlock.block.header = importBlock.post ∧
      importBlock.body = some signedBlock.block.extrinsics ∧
      (importBlock.postDigests.length = 1 ∨
        importBlock.postDigests = [] ∧ importBlock.header.digest = []) ∧
      w₀.main.stateAt parent = .ok parentState) ∧
    world.main.changesTriesStateAtBlock parent = .ok () ∧
    world.main.stateAt parent = .ok parentState

/-- No other state of the parent is at the client's backend, and its root can
be computed. -/
structure SoundParent (world : World) (signedBlock : SignedBlock) (parentState : StateBackend) :
    Prop where
  same : ∀ state, world.main.stateAt (.hash signedBlock.block.header.parentHash) = .ok state →
    state = parentState
  root : ∀ changes, ∃ root, parentState.storageRoot changes = .ok root

/-- The message carries storage changes of an execution that succeeded and
reached the header's state root. -/
def Verified (node : Node) (world : World) (n : BlockNumber) (msg : ArchiveSendMsg) : Prop :=
  ∃ storages signedBlock api specVersion,
    node.executeBlockAndIntoStorageChanges world n = .ok (some (storages, signedBlock)) ∧
    msg = node.archiveSendMsg n storages signedBlock specVersion ∧
    MockRuntimeApiImpl.executeBlock (node.client world)
      (.hash signedBlock.block.header.parentHash) signedBlock.blockExecute .new =
        .ok (.ok (), api) ∧
    storages.transactionStorageRoot = signedBlock.block.header.stateRoot

variable {signedBlock : SignedBlock} {parentState : StateBackend} {msg : ArchiveSendMsg}
  {cache' : RuntimeVersionCache}

theorem atHand_of_archive (h : node.archive world cache n = .ok (some msg, cache')) :
    ∃ storages signedBlock parentState specVersion,
      node.AtHand world cache n signedBlock parentState ∧
      node.executeBlockAndIntoStorageChanges world n = .ok (some (storages, signedBlock)) ∧
      msg = node.archiveSendMsg n storages signedBlock specVersion := by
  obtain ⟨storages, signedBlock, hexecute, hbuild⟩ := archive_eq_some.mp h
  obtain ⟨hblock, parentState, hstate, -⟩ := executeBlockAndIntoStorageChanges_eq_some.mp hexecute
  obtain ⟨version, hversion, rfl⟩ := archiveBuild_eq_ok.mp hbuild
  have hanswers := RuntimeVersionCache.getById_eq_some_iff.mp ⟨version, cache', hversion⟩
  exact ⟨storages, signedBlock, parentState, version.specVersion, ⟨hblock, hstate, hanswers⟩,
    hexecute, rfl⟩

/-- A block that is imported by execution is executed again with the result
that the import has checked. -/
theorem ImportedOn.reexecuted (h : node.ImportedOn world signedBlock parentState)
    (hat : node.AtHand world cache n signedBlock parentState) :
    ∃ storages api,
      node.executeBlockAndIntoStorageChanges world n = .ok (some (storages, signedBlock)) ∧
      MockRuntimeApiImpl.executeBlock (node.client world)
        (.hash signedBlock.block.header.parentHash) signedBlock.blockExecute .new =
          .ok (.ok (), api) ∧
      storages.transactionStorageRoot = signedBlock.block.header.stateRoot := by
  obtain ⟨⟨w₀, importingBlock, importBlock, storages, himport, hheader, hbody, hdigest, hstate₀⟩,
    htries, hstate⟩ := h
  have hparent : signedBlock.block.header.parentHash = importBlock.header.parentHash := by
    rw [hheader, BlockImportParams.post_parentHash]
  have hroot : signedBlock.block.header.stateRoot = importBlock.header.stateRoot := by
    rw [hheader, BlockImportParams.post_eq]
  obtain ⟨body, bytes, -, hbody', hbytes, -, -, hchecked⟩ := himport.checked
  obtain rfl : signedBlock.block.extrinsics = body := by simpa [hbody] using hbody'
  obtain ⟨-, -, -, htries₀, -⟩ := LocalCallExecutor.callStateMachine_eq_ok hbytes
  have hexecuted := SignedBlock.blockExecute_of_post hheader hdigest
  rw [hparent] at htries hstate hstate₀
  have houtcome := node.executeBlockOutcome_of_executed hexecuted (htries.trans htries₀.symm)
    (hstate.trans hstate₀.symm)
  have hreadonly := hat.parent
  rw [hparent] at hreadonly
  refine ⟨storages, node.replayed world signedBlock, ?_, ?_, hchecked.trans hroot.symm⟩
  · exact executeBlockAndIntoStorageChanges_of_executes himport hexecuted hbody hat.block
      (htries.trans htries₀.symm) (hstate.trans hstate₀.symm) (hreadonly.trans hstate₀.symm)
  · rw [← houtcome] at hbytes
    rw [MockRuntimeApiImpl.executeBlock_new, hbytes]
    rfl

/-- A verified message is about a block that an import accepts while the parent
is imported. -/
theorem Verified.importedOn (h : node.Verified world n msg)
    (hat : node.AtHand world cache n signedBlock parentState)
    (hsound : SoundParent world signedBlock parentState) :
    node.ImportedOn world signedBlock parentState := by
  obtain ⟨storages, signedBlock', api, specVersion, hexecute, -, hok, hroot⟩ := h
  obtain ⟨hblock, state, hstate, hstorages⟩ := executeBlockAndIntoStorageChanges_eq_some.mp hexecute
  obtain rfl : signedBlock = signedBlock' := by simpa [hat.block] using hblock
  obtain rfl : parentState = state := by simpa [hat.parent] using hstate
  obtain ⟨bytes, hbytes⟩ : ∃ bytes, (MockRuntimeApiImpl.executeBlockOutcome (node.client world)
      (.hash signedBlock.block.header.parentHash) signedBlock.blockExecute).1 = .ok bytes := by
    rw [MockRuntimeApiImpl.executeBlock_new] at hok
    rcases hanswer : (MockRuntimeApiImpl.executeBlockOutcome (node.client world)
      (.hash signedBlock.block.header.parentHash) signedBlock.blockExecute).1 with error | bytes
    · simp [hanswer, Except.map] at hok
    · exact ⟨bytes, rfl⟩
  obtain ⟨state, -, -, htries, hmain, -⟩ := LocalCallExecutor.callStateMachine_eq_ok hbytes
  obtain rfl := hsound.same state hmain
  obtain ⟨postDigests, hpost, hdigest⟩ :=
    signedBlock.block.header.exists_post (some signedBlock.block.extrinsics)
  let importBlock : BlockImportParams := ⟨signedBlock.block.header.digestPop, postDigests,
    some signedBlock.block.extrinsics, none, false⟩
  have himport : (node.client world).Executes (some importBlock.header.parentHash) importBlock
      storages :=
    Client.executes_of_outcome rfl rfl htries hmain hbytes hstorages hroot
  exact ⟨⟨world, _, importBlock, storages, himport, hpost, rfl, hdigest, hmain⟩, htries, hmain⟩

/-- Every message for a height is verified when its block, should everything
be at hand to send it, is one that an import by execution accepts on the state
of its parent; and only then, unless the backends have different states for one
hash or no root for a state. -/
theorem verified_iff_imported :
    ((∀ signedBlock parentState, node.AtHand world cache n signedBlock parentState →
        node.ImportedOn world signedBlock parentState) →
      ∀ msg cache', node.archive world cache n = .ok (some msg, cache') →
        node.Verified world n msg) ∧
    ((∀ signedBlock parentState, node.AtHand world cache n signedBlock parentState →
        SoundParent world signedBlock parentState) →
      (∀ msg cache', node.archive world cache n = .ok (some msg, cache') →
        node.Verified world n msg) →
      ∀ signedBlock parentState, node.AtHand world cache n signedBlock parentState →
        node.ImportedOn world signedBlock parentState) := by
  constructor
  · intro himported msg cache' hsent
    obtain ⟨storages, signedBlock, parentState, specVersion, hat, hexecute, rfl⟩ :=
      atHand_of_archive hsent
    obtain ⟨storages', api, hexecute', hok, hroot⟩ :=
      (himported signedBlock parentState hat).reexecuted hat
    obtain rfl : storages = storages' := by
      rw [hexecute, Except.ok.injEq, Option.some.injEq, Prod.mk.injEq] at hexecute'
      exact hexecute'.1
    exact ⟨storages, signedBlock, api, specVersion, hexecute, rfl, hok, hroot⟩
  · intro hsound hverified signedBlock parentState hat
    obtain ⟨storages, hstorages⟩ := (node.replayed world signedBlock).intoStorageChanges_isOk
      (hsound signedBlock parentState hat).root
    have hexecute : node.executeBlockAndIntoStorageChanges world n =
        .ok (some (storages, signedBlock)) :=
      executeBlockAndIntoStorageChanges_eq_some.mpr ⟨hat.block, parentState, hat.parent, hstorages⟩
    obtain ⟨version, cache', hversion⟩ := RuntimeVersionCache.getById_eq_some_iff.mpr hat.version
    have hbuild : node.archiveBuild world cache n storages signedBlock =
        .ok (node.archiveSendMsg n storages signedBlock version.specVersion, cache') :=
      archiveBuild_eq_ok.mpr ⟨version, hversion, rfl⟩
    have hsent := archive_eq_some.mpr ⟨storages, signedBlock, hexecute, hbuild⟩
    exact (hverified _ _ hsent).importedOn hat (hsound signedBlock parentState hat)

/-- The block at height one as it comes to the import, with a seal. -/
def Sample.sealed : BlockImportParams where
  header := { (Sample.block 1 [0, 0] 5 1).header with digest := [] }
  postDigests := [.seal [] []]
  body := some [[5], [1]]
  storageChanges := none
  allowMissingState := false

theorem verified_iff_imported_sealed :
    ∃ msg cache, Sample.node.archive (Sample.world [(5, 1)]) .new 1 = .ok (some msg, cache) ∧
      msg.payload.mainChanges.rows = [([1], some [5])] ∧
      Sample.node.Verified (Sample.world [(5, 1)]) 1 msg := by
  have hcompute : ((Sample.node.archive (Sample.world [(5, 1)]) .new 1).toOption.bind Prod.fst).map
      (fun msg ↦ msg.payload.mainChanges.rows) = some [([1], some [5])] := by
    decide +kernel
  rcases harchive : Sample.node.archive (Sample.world [(5, 1)]) .new 1 with panic | ⟨_ | msg, cache⟩
  · simp [harchive, Except.toOption] at hcompute
  · simp [harchive, Except.toOption] at hcompute
  · refine ⟨msg, cache, rfl, by simpa [harchive, Except.toOption] using hcompute, ?_⟩
    refine verified_iff_imported.1 ?_ msg cache harchive
    intro signedBlock parentState hat
    obtain rfl : (Sample.block 1 [0, 0] 5 1).signed = signedBlock := by
      have hblock : (archiveCore (Sample.world [(5, 1)])).getBlock 1 =
          .ok (some (Sample.block 1 [0, 0] 5 1).signed) := rfl
      simpa [hblock] using hat.block
    obtain rfl : Sample.state 0 1 = parentState := Except.ok.inj hat.parent
    have hexecutes : (Sample.node.client (Sample.world [])).Executes none Sample.sealed
        ⟨[([1], some [5])], [], [5]⟩ := ⟨rfl, by decide +kernel⟩
    exact ⟨⟨Sample.world [], none, Sample.sealed, _, hexecutes, rfl, rfl, Or.inl rfl, rfl⟩,
      rfl, rfl⟩

/-- A node whose runtime accepts only blocks with one digest item. -/
def Sample.strictNode : Node where
  codec := { Sample.codec with
    encodeBlock := fun block ↦ UInt8.ofNat block.header.digest.length :: block.extrinsics.flatten }
  engine := { Sample.engine with
    call := fun code state method callData pending ↦
      match method, callData with
      | "Core_execute_block", 1 :: callData => Sample.engine.call code state method callData pending
      | "Core_execute_block", _ => (.error (.execution "unexpected digest"), pending)
      | _, _ => Sample.engine.call code state method callData pending }
  reader := Sample.reader
  genesisStorage := Sample.node.genesisStorage
  wasmOverride := none

/-- The block at height one as it comes to the import, without a seal. -/
def Sample.unsealed : BlockImportParams where
  header := (Sample.block 1 [0, 0] 5 1).header
  postDigests := []
  body := some [[5], [1]]
  storageChanges := none
  allowMissingState := false

/-- A block without a seal is imported, and the archive sends it without its
changes. -/
theorem unverified_without_seal :
    (∃ storages, (Sample.strictNode.client (Sample.world [])).Executes none Sample.unsealed
      storages) ∧
    Sample.unsealed.post = (Sample.block 1 [0, 0] 5 1).header ∧
    ∃ msg cache, Sample.strictNode.archive (Sample.world [(5, 1)]) .new 1 = .ok (some msg, cache) ∧
      msg.payload.mainChanges.rows = [] ∧
      ¬ Sample.strictNode.Verified (Sample.world [(5, 1)]) 1 msg := by
  refine ⟨⟨⟨[([1], some [5])], [], [5]⟩, rfl, by decide +kernel⟩, rfl, ?_⟩
  have hcompute : ((Sample.strictNode.archive (Sample.world [(5, 1)]) .new
      1).toOption.bind Prod.fst).map (fun msg ↦ msg.payload.mainChanges.rows) = some [] := by
    decide +kernel
  rcases harchive : Sample.strictNode.archive (Sample.world [(5, 1)]) .new 1 with
    panic | ⟨_ | msg, cache⟩
  · simp [harchive, Except.toOption] at hcompute
  · simp [harchive, Except.toOption] at hcompute
  · refine ⟨msg, cache, rfl, by simpa [harchive, Except.toOption] using hcompute, ?_⟩
    rintro ⟨storages, signedBlock, api, -, hexecute, -, hok, -⟩
    have hread := (executeBlockAndIntoStorageChanges_eq_some.mp hexecute).1
    have hblock : (archiveCore (Sample.world [(5, 1)])).getBlock 1 =
        .ok (some (Sample.block 1 [0, 0] 5 1).signed) := rfl
    obtain rfl : (Sample.block 1 [0, 0] 5 1).signed = signedBlock := by
      simpa [hblock] using hread
    have hfails : (MockRuntimeApiImpl.executeBlock
        (Sample.strictNode.client (Sample.world [(5, 1)])) (.hash [0, 0])
        (Sample.block 1 [0, 0] 5 1).signed.blockExecute .new).toOption.map
          (fun result ↦ result.1.toOption) = some none := by
      decide +kernel
    have hparent : (Sample.block 1 [0, 0] 5 1).signed.block.header.parentHash = [0, 0] := rfl
    rw [hparent] at hok
    simp [hok, Except.toOption] at hfails

end Node

end SubArchive
