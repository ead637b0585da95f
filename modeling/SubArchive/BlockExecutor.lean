import SubArchive.MockRuntime
import SubArchive.VersionCache
import SubArchive.Messages

/-!
# The block executor

`BlockExecutor` re-executes a block on its parent's state and turns the storage
changes into a row and a payload.  It reads blocks, parent states and versions
from the archive core's backend and executes on the client's.
-/

namespace SubArchive

open Results

/-- The two backends as they are at one moment.  With the `LocalBackend`
strategy they are the same. -/
structure World where
  main : Backend
  readonly : Backend

/-- What the service is started with: the runtime engine, the version reader,
the encodings, the chain specification's storage and the wasm overrides. -/
structure Node where
  codec : Codec
  engine : CodeExecutor
  reader : VersionReader
  genesisStorage : Storage
  wasmOverride : Option (ℕ → Option Bytes)

/-- The backends at each read of one call of `archive`, in the order of the
reads: three for the block, the parent's state, the client's reads during the
execution, and the version. -/
structure ArchiveReads where
  header : World
  body : World
  justifications : World
  state : World
  execution : World
  version : World

namespace ArchiveReads

def still (w : World) : ArchiveReads := ⟨w, w, w, w, w, w⟩

/-- What the first half of `archive` sees: it makes each of these reads once. -/
def seen (reads : ArchiveReads) : World where
  main := reads.execution.main
  readonly := { reads.header.readonly with
    blockchain := { reads.header.readonly.blockchain with
      body := reads.body.readonly.blockchain.body
      justifications := reads.justifications.readonly.blockchain.justifications }
    stateAt := reads.state.readonly.stateAt }

end ArchiveReads

/-- The block that is executed: the header without its last digest item. -/
def SignedBlock.blockExecute (signedBlock : SignedBlock) : Block :=
  ⟨signedBlock.block.header.digestPop, signedBlock.block.extrinsics⟩

namespace Node

def client (node : Node) (world : World) : Client where
  backend := world.main
  executor := ⟨world.main, node.engine, node.wasmOverride⟩
  codec := node.codec

def archiveCore (world : World) : LocalBackendCore := ⟨world.readonly⟩

@[simp] theorem getState_archiveCore (world : World) (id : BlockId) :
    (archiveCore world).getState id = world.readonly.stateAt id := rfl

def metadata (node : Node) (world : World) (number : BlockNumber) :
    Except Panic (Except Error Bytes) :=
  (MockRuntimeApiImpl.metadata (node.client world) (.number number) .new).map Prod.fst

def executeBlockAndIntoStorageChanges (node : Node) (world : World) (blockNumber : BlockNumber) :
    Except Panic (Option (StorageChanges × SignedBlock)) := do
  match ← (archiveCore world).getBlock blockNumber with
  | none => return none
  | some signedBlock =>
      let parentHash := signedBlock.block.header.parentHash
      let parentBlockId := BlockId.hash parentHash
      match (archiveCore world).getState parentBlockId with
      | .error _ => return none
      | .ok state =>
          -- the result of the execution is dropped
          let (_, runtimeApi) ← MockRuntimeApiImpl.executeBlock (node.client world) parentBlockId
            signedBlock.blockExecute .new
          match (runtimeApi.intoStorageChanges state).1 with
          | .error _ => return none
          | .ok storages => return some (storages, signedBlock)

/-- The storage map of a message: the chain specification's top storage for
the genesis block, the main changes otherwise. -/
def storagesMap (node : Node) (number : BlockNumber) (storages : StorageChanges) : StorageMap :=
  if number = 0 then
    .ofList (node.genesisStorage.top.map fun (k, v) ↦ (k, some v))
  else .ofList storages.mainStorageChanges

def archiveSendMsg (node : Node) (number : BlockNumber) (storages : StorageChanges)
    (signedBlock : SignedBlock) (specVersion : ℕ) : ArchiveSendMsg :=
  let header := signedBlock.block.header
  let extrinsics := signedBlock.block.extrinsics
  let justifications := signedBlock.justifications
  let storagesMap := node.storagesMap number storages
  let hash := node.codec.hashHeader header
  { model := {
      specVersion
      blockNum := number
      blockHash := hash
      parentHash := header.parentHash
      stateRoot := header.stateRoot
      extrinsicsRoot := header.extrinsicsRoot
      digest := node.codec.encodeDigest header.digest
      extrinsics := extrinsics.map node.codec.encodeExtrinsic
      justifications := justifications.map fun js ↦ js.map node.codec.encodeJustification
      mainChanges := storagesMap.toJson
      childChanges := .null }
    payload := {
      specVersion
      blockNum := header.number
      blockHash := hash
      parentHash := header.parentHash
      stateRoot := header.stateRoot
      extrinsicsRoot := header.extrinsicsRoot
      digest := header.digest
      extrinsics
      justifications
      mainChanges := storagesMap
      childChanges := .empty }
    agrees := ⟨rfl, rfl, rfl, rfl, rfl, rfl⟩ }

/-- The first half of `archive`: the block's storage changes, or `none` for a
genesis block that could not be read. -/
def archiveExecute (node : Node) (world : World) (number : BlockNumber) :
    Except Panic (Option (StorageChanges × SignedBlock)) := do
  let storages ← node.executeBlockAndIntoStorageChanges world number
  if storages.isNone ∧ number ≠ 0 then
    throw s!"executor >> SYNC {number} get storages is none"
  return storages

/-- The second half of `archive`: the version read by block number, and the
message. -/
def archiveBuild (node : Node) (world : World) (cache : RuntimeVersionCache)
    (number : BlockNumber) (storages : StorageChanges) (signedBlock : SignedBlock) :
    Except Panic (ArchiveSendMsg × RuntimeVersionCache) := do
  let (rtVersion, cache) ← cache.getById node.reader world.readonly (.number number)
  match rtVersion with
  | .error error => throw s!"get runtime version error: {repr error}"
  | .ok none => throw s!"get runtime version none from block:{number}"
  | .ok (some version) =>
      return (node.archiveSendMsg number storages signedBlock version.specVersion, cache)

/-- `archive` in a world that stays as it is.  It sends the message, if there
is one, to the archiver and the number to the comparer. -/
def archive (node : Node) (world : World) (cache : RuntimeVersionCache) (number : BlockNumber) :
    Except Panic (Option ArchiveSendMsg × RuntimeVersionCache) := do
  match ← node.archiveExecute world number with
  | none => return (none, cache)
  | some (storages, signedBlock) =>
      let (msg, cache) ← node.archiveBuild world cache number storages signedBlock
      return (some msg, cache)

/-- `archive` with the backends moving between its reads. -/
def archiveInterleaved (node : Node) (reads : ArchiveReads) (cache : RuntimeVersionCache)
    (number : BlockNumber) : Except Panic (Option ArchiveSendMsg × RuntimeVersionCache) := do
  match ← node.archiveExecute reads.seen number with
  | none => return (none, cache)
  | some (storages, signedBlock) =>
      let (msg, cache) ← node.archiveBuild reads.version cache number storages signedBlock
      return (some msg, cache)

theorem archiveInterleaved_still (node : Node) (w : World) (cache : RuntimeVersionCache)
    (n : BlockNumber) : node.archiveInterleaved (.still w) cache n = node.archive w cache n :=
  rfl

/-! ## What the parts of `archive` return -/

variable {node : Node} {world : World} {cache : RuntimeVersionCache} {n : BlockNumber}

/-- The API object after the re-execution of a block, whatever came out of
it. -/
def replayed (node : Node) (world : World) (signedBlock : SignedBlock) : MockRuntimeApiImpl :=
  MockRuntimeApiImpl.new.settle (MockRuntimeApiImpl.executeBlockOutcome (node.client world)
    (.hash signedBlock.block.header.parentHash) signedBlock.blockExecute)

/-- Storage changes come from a block and a parent state of the archive core
and from an execution on the client, whose result plays no part. -/
theorem executeBlockAndIntoStorageChanges_eq_some {storages : StorageChanges}
    {signedBlock : SignedBlock} :
    node.executeBlockAndIntoStorageChanges world n = .ok (some (storages, signedBlock)) ↔
      (archiveCore world).getBlock n = .ok (some signedBlock) ∧
      ∃ state, world.readonly.stateAt (.hash signedBlock.block.header.parentHash) = .ok state ∧
        ((node.replayed world signedBlock).intoStorageChanges state).1 = .ok storages := by
  rcases hblock : (archiveCore world).getBlock n with panic | _ | signed
  · simp [executeBlockAndIntoStorageChanges, hblock]
  · simp [executeBlockAndIntoStorageChanges, hblock]
  · simp only [Except.ok.injEq, Option.some.injEq]
    rcases hstate : world.readonly.stateAt (.hash signed.block.header.parentHash) with error | state
    · have hnone : node.executeBlockAndIntoStorageChanges world n = .ok none := by
        simp [executeBlockAndIntoStorageChanges, hblock, hstate]
      constructor
      · intro h
        simp [hnone] at h
      · rintro ⟨rfl, state, hstate', -⟩
        simp [hstate] at hstate'
    · have hresult : node.executeBlockAndIntoStorageChanges world n =
          match ((node.replayed world signed).intoStorageChanges state).1 with
          | .error _ => .ok none
          | .ok storages => .ok (some (storages, signed)) := by
        simp [executeBlockAndIntoStorageChanges, hblock, hstate,
          MockRuntimeApiImpl.executeBlock_new, replayed]
      rw [hresult]
      rcases hst : ((node.replayed world signed).intoStorageChanges state).1 with error | st
      · constructor
        · intro h
          simp at h
        · rintro ⟨rfl, state', hstate', hst'⟩
          obtain rfl : state = state' := by simpa [hstate] using hstate'
          simp [hst] at hst'
      · simp only [Except.ok.injEq, Option.some.injEq, Prod.mk.injEq]
        constructor
        · rintro ⟨rfl, rfl⟩
          exact ⟨rfl, state, hstate, hst⟩
        · rintro ⟨rfl, state', hstate', hst'⟩
          obtain rfl : state = state' := by simpa [hstate] using hstate'
          exact ⟨by simpa [hst] using hst', rfl⟩

theorem archiveExecute_eq_some {storages : StorageChanges} {signedBlock : SignedBlock} :
    node.archiveExecute world n = .ok (some (storages, signedBlock)) ↔
      node.executeBlockAndIntoStorageChanges world n = .ok (some (storages, signedBlock)) := by
  unfold archiveExecute
  rcases node.executeBlockAndIntoStorageChanges world n with panic | _ | pair
  · simp
  · by_cases hn : n = 0 <;> simp [hn]
  · simp

theorem archiveExecute_eq_none (h : node.archiveExecute world n = .ok none) : n = 0 := by
  unfold archiveExecute at h
  rcases hexec : node.executeBlockAndIntoStorageChanges world n with panic | _ | pair
  · simp [hexec] at h
  · by_contra hn
    simp [hexec, hn] at h
  · simp [hexec] at h

theorem archiveBuild_eq_ok {storages : StorageChanges} {signedBlock : SignedBlock}
    {msg : ArchiveSendMsg} {cache' : RuntimeVersionCache} :
    node.archiveBuild world cache n storages signedBlock = .ok (msg, cache') ↔
      ∃ version, cache.getById node.reader world.readonly (.number n) =
          .ok (.ok (some version), cache') ∧
        msg = node.archiveSendMsg n storages signedBlock version.specVersion := by
  unfold archiveBuild
  rcases cache.getById node.reader world.readonly (.number n) with panic | ⟨error | _ | version, c⟩
  · simp
  · simp
  · simp
  · simp only [Except.ok.injEq, Prod.mk.injEq, Option.some.injEq, ok_bind, pure_eq]
    constructor
    · rintro ⟨rfl, rfl⟩
      exact ⟨version, ⟨rfl, rfl⟩, rfl⟩
    · rintro ⟨_, ⟨rfl, rfl⟩, rfl⟩
      exact ⟨rfl, rfl⟩

theorem archiveInterleaved_eq_some {reads : ArchiveReads} {msg : ArchiveSendMsg}
    {cache' : RuntimeVersionCache} :
    node.archiveInterleaved reads cache n = .ok (some msg, cache') ↔
      ∃ storages signedBlock,
        node.executeBlockAndIntoStorageChanges reads.seen n = .ok (some (storages, signedBlock)) ∧
        node.archiveBuild reads.version cache n storages signedBlock = .ok (msg, cache') := by
  unfold archiveInterleaved
  simp only [← archiveExecute_eq_some, bind_eq_ok]
  constructor
  · rintro ⟨_ | ⟨storages, signedBlock⟩, hexecute, hrest⟩
    · simp at hrest
    · obtain ⟨⟨m, c⟩, hbuild, hpair⟩ := bind_eq_ok.mp hrest
      obtain ⟨rfl, rfl⟩ : m = msg ∧ c = cache' := by simpa using hpair
      exact ⟨storages, signedBlock, hexecute, hbuild⟩
  · rintro ⟨storages, signedBlock, hexecute, hbuild⟩
    exact ⟨some (storages, signedBlock), hexecute, bind_of_ok hbuild _⟩

theorem archive_eq_some {msg : ArchiveSendMsg} {cache' : RuntimeVersionCache} :
    node.archive world cache n = .ok (some msg, cache') ↔
      ∃ storages signedBlock,
        node.executeBlockAndIntoStorageChanges world n = .ok (some (storages, signedBlock)) ∧
        node.archiveBuild world cache n storages signedBlock = .ok (msg, cache') := by
  rw [← archiveInterleaved_still]
  exact archiveInterleaved_eq_some

theorem metadata_eq_ok {metadata : Bytes} (h : node.metadata world n = .ok (.ok metadata)) :
    ∃ state onchainCode code bytes pending, world.main.stateAt (.number n) = .ok state ∧
      state.runtimeCode = .ok onchainCode ∧
      (node.client world).executor.checkOverride onchainCode (.number n) = .ok code ∧
      (node.engine.call code state "Metadata_metadata" [] pending).1 = .ok bytes ∧
      node.codec.decodeBytes bytes = some metadata := by
  unfold Node.metadata at h
  rcases hcall : MockRuntimeApiImpl.metadata (node.client world) (.number n) .new with
    panic | ⟨res, api⟩
  · simp [hcall, Except.map] at h
  · obtain rfl : res = .ok metadata := by simpa [hcall, Except.map] using h
    obtain ⟨bytes, pending, hdecode, hbytes⟩ := MockRuntimeApiImpl.callApiAt_eq_ok hcall
    obtain ⟨state, onchainCode, code, htries, hstate, honchain, hcode⟩ :=
      LocalCallExecutor.callStateMachine_eq_ok hbytes
    rw [LocalCallExecutor.callStateMachine_of_state htries hstate honchain hcode] at hbytes
    exact ⟨state, onchainCode, code, bytes, pending, hstate, honchain, hcode, hbytes, hdecode⟩

/-! ## The code that runs -/

section Call

variable {id : BlockId} {state : StateBackend} {onchainCode code : Bytes}

/-- The code that runs in the place of an on-chain one. -/
def overridden (node : Node) (code : Bytes) : Bytes :=
  match node.wasmOverride with
  | none => code
  | some get =>
      match node.engine.runtimeVersion code with
      | .ok version => (get version.specVersion).getD code
      | .error _ => code

theorem overridden_of_checkOverride (hstate : world.main.stateAt id = .ok state)
    (honchain : state.runtimeCode = .ok onchainCode)
    (h : (node.client world).executor.checkOverride onchainCode id = .ok code) :
    code = node.overridden onchainCode := by
  unfold LocalCallExecutor.checkOverride at h
  unfold overridden
  rcases hoverride : node.wasmOverride with _ | get
  · simpa [client, hoverride, eq_comm] using h
  · simp only [client, hoverride, LocalCallExecutor.runtimeVersion, hstate] at h
    rcases htries : world.main.changesTriesStateAtBlock id with error | _
    · simp [htries] at h
    · rcases hversion : node.engine.runtimeVersion onchainCode with error | version
      · simp [htries, honchain, hversion] at h
      · simpa [htries, honchain, hversion, eq_comm] using h

/-- An override cannot be looked up without the version of the on-chain code. -/
theorem checkOverride_eq_error {error : Error}
    (htries : world.main.changesTriesStateAtBlock id = .ok ())
    (hstate : world.main.stateAt id = .ok state) (honchain : state.runtimeCode = .ok onchainCode)
    (h : (node.client world).executor.checkOverride onchainCode id = .error error) :
    node.wasmOverride ≠ none ∧ node.engine.runtimeVersion onchainCode = .error error := by
  unfold LocalCallExecutor.checkOverride at h
  rcases hoverride : node.wasmOverride with _ | get
  · simp [client, hoverride] at h
  · refine ⟨Option.some_ne_none get, ?_⟩
    rcases hversion : node.engine.runtimeVersion onchainCode with error' | version <;>
      simp [client, hoverride, LocalCallExecutor.runtimeVersion, htries, hstate, honchain,
        hversion] at h
    rw [h]

/-- The client's backend has what a call of the runtime needs. -/
def CanCall (node : Node) (world : World) (id : BlockId) : Prop :=
  ∃ state onchainCode, world.main.changesTriesStateAtBlock id = .ok () ∧
    world.main.stateAt id = .ok state ∧ state.runtimeCode = .ok onchainCode ∧
    (node.wasmOverride = none ∨ ∃ version, node.engine.runtimeVersion onchainCode = .ok version)

/-- A block is executed by one call of the code in its parent's state, or of
the one that overrides it, unless the client's backend does not allow a
call. -/
theorem executeBlockOutcome_cases (node : Node) (world : World) (id : BlockId) (block : Block) :
    (∃ state onchainCode, world.main.stateAt id = .ok state ∧
      state.runtimeCode = .ok onchainCode ∧
      MockRuntimeApiImpl.executeBlockOutcome (node.client world) id block =
        node.engine.call (node.overridden onchainCode) state "Core_execute_block"
          (node.codec.encodeBlock block) (.empty, none)) ∨
    ¬ node.CanCall world id ∧ ∃ error,
      MockRuntimeApiImpl.executeBlockOutcome (node.client world) id block =
        (.error error, .empty, none) := by
  rcases htries : world.main.changesTriesStateAtBlock id with error | _
  · refine Or.inr ⟨?_, error, ?_⟩
    · rintro ⟨_, _, htries', -⟩
      simp [htries] at htries'
    · simp [MockRuntimeApiImpl.executeBlockOutcome, LocalCallExecutor.callStateMachine, client,
        htries]
  rcases hstate : world.main.stateAt id with error | state
  · refine Or.inr ⟨?_, error, ?_⟩
    · rintro ⟨_, _, -, hstate', -⟩
      simp [hstate] at hstate'
    · simp [MockRuntimeApiImpl.executeBlockOutcome, LocalCallExecutor.callStateMachine, client,
        htries, hstate]
  rcases honchain : state.runtimeCode with error | onchainCode
  · refine Or.inr ⟨?_, error, ?_⟩
    · rintro ⟨state', _, -, hstate', honchain', -⟩
      obtain rfl : state = state' := Except.ok.inj (hstate.symm.trans hstate')
      simp [honchain] at honchain'
    · simp [MockRuntimeApiImpl.executeBlockOutcome, LocalCallExecutor.callStateMachine, client,
        htries, hstate, honchain]
  rcases hcode : (node.client world).executor.checkOverride onchainCode id with error | code
  · obtain ⟨hoverride, hunreadable⟩ := checkOverride_eq_error htries hstate honchain hcode
    refine Or.inr ⟨?_, error, ?_⟩
    · rintro ⟨state', onchainCode', -, hstate', honchain', hreadable⟩
      obtain rfl : state = state' := Except.ok.inj (hstate.symm.trans hstate')
      obtain rfl : onchainCode = onchainCode' := Except.ok.inj (honchain.symm.trans honchain')
      rcases hreadable with hnone | ⟨version, hversion⟩
      · exact hoverride hnone
      · simp [hunreadable] at hversion
    · unfold MockRuntimeApiImpl.executeBlockOutcome LocalCallExecutor.callStateMachine
      rw [show (node.client world).executor.backend = world.main from rfl]
      simp [htries, hstate, honchain, hcode]
  · refine Or.inl ⟨state, onchainCode, rfl, honchain, ?_⟩
    rw [← overridden_of_checkOverride hstate honchain hcode]
    exact LocalCallExecutor.callStateMachine_of_state htries hstate honchain hcode _ _ _

end Call

/-! ## Worlds that answer alike -/

variable {w w' : World}

theorem executeBlockAndIntoStorageChanges_congr {signedBlock : SignedBlock}
    (hblock : (archiveCore w).getBlock n = .ok (some signedBlock))
    (hblock' : (archiveCore w').getBlock n = .ok (some signedBlock))
    (htries : ∀ id, w.main.changesTriesStateAtBlock id = w'.main.changesTriesStateAtBlock id)
    (hmain : w.main.stateAt (.hash signedBlock.block.header.parentHash) =
      w'.main.stateAt (.hash signedBlock.block.header.parentHash))
    (hreadonly : w.readonly.stateAt (.hash signedBlock.block.header.parentHash) =
      w'.readonly.stateAt (.hash signedBlock.block.header.parentHash)) :
    node.executeBlockAndIntoStorageChanges w n = node.executeBlockAndIntoStorageChanges w' n := by
  have houtcome := LocalCallExecutor.callStateMachine_congr (a := (node.client w).executor)
    (b := (node.client w').executor) rfl rfl (htries _) hmain "Core_execute_block"
    (node.codec.encodeBlock signedBlock.blockExecute) (.empty, none)
  have hcall : MockRuntimeApiImpl.executeBlock (node.client w)
      (.hash signedBlock.block.header.parentHash) signedBlock.blockExecute .new =
      MockRuntimeApiImpl.executeBlock (node.client w')
        (.hash signedBlock.block.header.parentHash) signedBlock.blockExecute .new := by
    rw [MockRuntimeApiImpl.executeBlock_new, MockRuntimeApiImpl.executeBlock_new]
    simp only [MockRuntimeApiImpl.executeBlockOutcome]
    rw [show (node.client w').codec = (node.client w).codec from rfl]
    rw [show (node.client w).codec = node.codec from rfl, houtcome]
  unfold executeBlockAndIntoStorageChanges
  simp only [hblock, hblock', getState_archiveCore, hreadonly, hcall, ok_bind]

theorem metadata_congr
    (htries : ∀ id, w.main.changesTriesStateAtBlock id = w'.main.changesTriesStateAtBlock id)
    (hstate : w.main.stateAt (.number n) = w'.main.stateAt (.number n))
    (hhash : w.main.blockchain.hash n = w'.main.blockchain.hash n) :
    node.metadata w n = node.metadata w' n := by
  have hcall : ∀ method callData pending,
      (node.client w).executor.callStateMachine (.number n) method callData pending =
      (node.client w').executor.callStateMachine (.number n) method callData pending :=
    LocalCallExecutor.callStateMachine_congr (a := (node.client w).executor)
      (b := (node.client w').executor) rfl rfl (htries _) hstate
  have hversion : (node.client w).runtimeVersionAt (.number n) =
      (node.client w').runtimeVersionAt (.number n) := by
    simp only [Client.runtimeVersionAt, LocalCallExecutor.runtimeVersion, client, htries, hstate]
  have hheader : (node.client w).prepareEnvironmentBlock (.number n) =
      (node.client w').prepareEnvironmentBlock (.number n) := by
    simp only [Client.prepareEnvironmentBlock, Blockchain.expectBlockHashFromId, client, hhash,
      Blockchain.expectBlockNumberFromId]
  have hcodec : (node.client w).codec = (node.client w').codec := rfl
  simp only [metadata, MockRuntimeApiImpl.metadata, MockRuntimeApiImpl.callApiAt,
    MockRuntimeApiImpl.callApiAtNativeCode, Client.callApiAt, LocalCallExecutor.contextualCall,
    MockRuntimeApiImpl.initializeBlock, hcall, hversion, hheader, hcodec]

end Node

end SubArchive
