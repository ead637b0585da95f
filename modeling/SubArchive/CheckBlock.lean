import SubArchive.LockImportRun

/-!
# Checking a block before it is imported

`Client::check_block` looks at the status of a block and of its parent without
executing anything.  `import_block` looks at the same with checks of its own,
in `prepare_block_storage_changes` and in `execute_and_import_block`.
-/

namespace SubArchive

open Results

/-! ## Block rules -/

inductive LookupResult where
  | notSpecial
  | knownBad
  | expected (hash : Hash)
deriving DecidableEq, Repr

structure BlockRules where
  bad : List Hash
  forks : KeyedTable BlockNumber (BlockNumber × Hash) Prod.fst

namespace BlockRules

def new (forkBlocks : Option (List (BlockNumber × Hash))) (badBlocks : Option (List Hash)) :
    BlockRules where
  bad := badBlocks.getD []
  forks := (forkBlocks.getD []).foldl KeyedTable.upsert .empty

def lookup (rules : BlockRules) (number : BlockNumber) (hash : Hash) : LookupResult :=
  let lookupBad := if hash ∈ rules.bad then LookupResult.knownBad else .notSpecial
  match rules.forks.find? number with
  | some entry => if entry.2 ≠ hash then .expected entry.2 else lookupBad
  | none => lookupBad

end BlockRules

/-! ## `check_block` -/

structure BlockCheckParams where
  hash : Hash
  number : BlockNumber
  parentHash : Hash
  allowMissingState : Bool
  importExisting : Bool
deriving DecidableEq, Repr

/-- What the caller of `import_block` checks of a block. -/
def BlockImportRequest.checkParams (codec : Codec) (importBlock : BlockImportRequest) :
    BlockCheckParams where
  hash := codec.hashHeader importBlock.post
  number := importBlock.header.number
  parentHash := importBlock.header.parentHash
  allowMissingState := importBlock.allowMissingState
  importExisting := importBlock.importExisting

namespace Client

/-- The second half of `check_block`. -/
def checkParent (client : Client) (importingBlock : Option Hash) (block : BlockCheckParams) :
    Except ConsensusError ImportOutcome :=
  match client.blockStatus importingBlock (.hash block.parentHash) with
  | .error error => .error (.clientImport error)
  | .ok .inChainWithState | .ok .queued => .ok (.imported false)
  | .ok .unknown => .ok (.refused .unknownParent)
  | .ok .inChainPruned =>
      if block.allowMissingState then .ok (.imported false) else .ok (.refused .missingState)
  | .ok .knownBad => .ok (.refused .knownBad)

def checkBlock (client : Client) (blockRules : BlockRules) (importingBlock : Option Hash)
    (block : BlockCheckParams) : Except ConsensusError ImportOutcome :=
  match blockRules.lookup block.number block.hash with
  | .knownBad | .expected _ => .ok (.refused .knownBad)
  | .notSpecial =>
      -- a pruned block is in the chain whether existing blocks are imported or not
      match client.blockStatus importingBlock (.hash block.hash) with
      | .error error => .error (.clientImport error)
      | .ok .inChainWithState | .ok .queued =>
          if !block.importExisting then .ok .alreadyInChain
          else client.checkParent importingBlock block
      | .ok .inChainPruned => .ok .alreadyInChain
      | .ok .unknown => client.checkParent importingBlock block
      | .ok .knownBad => .ok (.refused .knownBad)

end Client

/-! ## What both look at -/

/-- The backend under the lock is the one that the block was checked
against. -/
structure LockedClient.Reflects (locked : LockedClient) (client : Client) : Prop where
  codec : locked.codec = client.codec
  info : locked.info = client.backend.blockchain.info
  blockStatus : ∀ hash, locked.blockStatus hash =
    (client.backend.blockchain.number hash).map fun number ↦
      if number.isSome then .inChain else .unknown

/-- The parent's status lets a block through. -/
def Client.AdmitsParent (client : Client) (parentHash : Hash) (allowMissingState : Bool) : Prop :=
  client.blockStatus none (.hash parentHash) = .ok .inChainWithState ∨
    client.blockStatus none (.hash parentHash) = .ok .inChainPruned ∧ allowMissingState = true

namespace Client

variable {client : Client} {hash : Hash}

/-- The status of a block in the chain, or not there. -/
def statusAt (client : Client) (hash : Hash) : Option BlockNumber → BlockStatus
  | some number =>
      if client.backend.haveStateAt hash number then .inChainWithState else .inChainPruned
  | none => .unknown

/-- Without an import in progress the status is that of the chain. -/
theorem blockStatus_none (client : Client) (hash : Hash) :
    client.blockStatus none (.hash hash) =
      client.statusAt hash <$> client.backend.blockchain.number hash := by
  unfold blockStatus
  dsimp only
  rw [if_neg (Option.some_ne_none hash).symm]
  rcases client.backend.blockchain.number hash with error | _ | number <;> rfl

/-- Nothing is queued, and no block is known to be bad. -/
theorem blockStatus_none_eq_ok {status : BlockStatus}
    (h : client.blockStatus none (.hash hash) = .ok status) :
    status = .inChainWithState ∨ status = .inChainPruned ∨ status = .unknown := by
  rw [blockStatus_none, map_eq_ok] at h
  obtain ⟨_ | number, -, rfl⟩ := h
  · exact Or.inr (Or.inr rfl)
  · by_cases hstate : client.backend.haveStateAt hash number = true
    · exact Or.inl (if_pos hstate)
    · exact Or.inr (Or.inl (if_neg hstate))

theorem number_of_inChain {status : BlockStatus}
    (h : client.blockStatus none (.hash hash) = .ok status)
    (hstatus : status = .inChainWithState ∨ status = .inChainPruned) :
    ∃ number, client.backend.blockchain.number hash = .ok (some number) := by
  rw [blockStatus_none, map_eq_ok] at h
  obtain ⟨_ | number, hnumber, rfl⟩ := h
  · rcases hstatus with hstatus | hstatus <;> cases hstatus
  · exact ⟨number, hnumber⟩

theorem blockStatus_of_number {number : BlockNumber}
    (h : client.backend.blockchain.number hash = .ok (some number)) :
    client.blockStatus none (.hash hash) = .ok .inChainWithState ∨
      client.blockStatus none (.hash hash) = .ok .inChainPruned := by
  rw [blockStatus_none, h]
  by_cases hstate : client.backend.haveStateAt hash number = true
  · exact Or.inl (congrArg Except.ok (if_pos hstate))
  · exact Or.inr (congrArg Except.ok (if_neg hstate))

theorem blockStatus_of_number_none (h : client.backend.blockchain.number hash = .ok none) :
    client.blockStatus none (.hash hash) = .ok .unknown := by
  rw [blockStatus_none, h]
  rfl

variable {block : BlockCheckParams} {blockRules : BlockRules}

theorem checkParent_eq_imported_iff {isNewBest : Bool} :
    client.checkParent none block = .ok (.imported isNewBest) ↔
      isNewBest = false ∧ client.AdmitsParent block.parentHash block.allowMissingState := by
  unfold checkParent AdmitsParent
  rcases hstatus : client.blockStatus none (.hash block.parentHash) with error | status
  · simp
  · rcases blockStatus_none_eq_ok hstatus with rfl | rfl | rfl
    · simp [eq_comm (a := false)]
    · cases block.allowMissingState <;> simp [eq_comm (a := false)]
    · simp

/-- `check_block` answers `Imported` for a new block, and for a block with
state if existing blocks are imported. -/
theorem checkBlock_eq_imported_iff
    (hrules : blockRules.lookup block.number block.hash = .notSpecial) {isNewBest : Bool} :
    client.checkBlock blockRules none block = .ok (.imported isNewBest) ↔
      isNewBest = false ∧ client.AdmitsParent block.parentHash block.allowMissingState ∧
        (client.blockStatus none (.hash block.hash) = .ok .unknown ∨
          client.blockStatus none (.hash block.hash) = .ok .inChainWithState ∧
            block.importExisting = true) := by
  unfold checkBlock
  rw [hrules]
  rcases hstatus : client.blockStatus none (.hash block.hash) with error | status
  · simp
  · rcases blockStatus_none_eq_ok hstatus with rfl | rfl | rfl
    · cases block.importExisting <;> simp [checkParent_eq_imported_iff]
    · simp
    · simp [checkParent_eq_imported_iff]

theorem executeForImport_result {importBlock prepared : BlockImportParams} {body : List Bytes}
    {result : Option ImportResult}
    (h : client.executeForImport importBlock body = .ok (.ok (result, prepared))) :
    result = none := by
  unfold executeForImport at h
  simp only [MockRuntimeApiImpl.executeBlockWithContext_new, ok_bind, pure_eq] at h
  split at h
  · simp at h
  · rcases hstate : client.backend.stateAt (.hash importBlock.header.parentHash) with error | state
    · simp [hstate] at h
    · simp only [hstate] at h
      split at h
      · simp at h
      · split at h
        · simp at h
        · split at h <;> simp at h
          exact h.1.symm

/-- A block is prepared exactly when its parent lets it through. -/
theorem prepareBlockStorageChanges_eq_none_iff {importBlock prepared : BlockImportParams}
    {result : Option ImportResult}
    (h : client.prepareBlockStorageChanges none importBlock = .ok (.ok (result, prepared))) :
    result = none ↔
      client.AdmitsParent importBlock.header.parentHash importBlock.allowMissingState := by
  unfold prepareBlockStorageChanges at h
  unfold AdmitsParent
  rcases hstatus : client.blockStatus none (.hash importBlock.header.parentHash) with error | status
  · simp [hstatus] at h
  · rw [hstatus] at h
    rcases blockStatus_none_eq_ok hstatus with rfl | rfl | rfl
    · refine iff_of_true ?_ (Or.inl rfl)
      rcases hstorages : importBlock.storageChanges with _ | storages
      · rcases hbody : importBlock.body with _ | body
        · simp only [hstorages, hbody, Except.ok.injEq, Prod.mk.injEq] at h
          exact h.1.symm
        · simp only [hstorages, hbody] at h
          exact executeForImport_result h
      · simp only [hstorages, Except.ok.injEq, Prod.mk.injEq] at h
        exact h.1.symm
    · cases hmissing : importBlock.allowMissingState
      · obtain ⟨rfl, -⟩ : some .missingState = result ∧ importBlock = prepared := by
          simpa [hmissing] using h
        simp
      · simp only [hmissing, if_true, Except.ok.injEq, Prod.mk.injEq] at h
        exact iff_of_true h.1.symm (Or.inr ⟨rfl, rfl⟩)
    · simp only [Except.ok.injEq, Prod.mk.injEq] at h
      rw [← h.1]
      simp

end Client

/-! ## What `import_block` answers -/

theorem BlockImportRequest.prepare_eq_none_iff {importBlock prepared : BlockImportRequest}
    {client : Client} {result : Option ImportResult}
    (h : importBlock.prepare client none = .ok (result, prepared)) :
    result = none ↔
      client.AdmitsParent importBlock.header.parentHash importBlock.allowMissingState := by
  unfold prepare at h
  rcases hprepare : client.prepareBlockStorageChanges none importBlock.toBlockImportParams with
    panic | error | ⟨result', params⟩
  · simp [hprepare] at h
  · simp [hprepare] at h
  · obtain ⟨rfl, -⟩ : result' = result ∧ _ = prepared := by simpa [hprepare] using h
    exact Client.prepareBlockStorageChanges_eq_none_iff hprepare

namespace LockedClient

variable {locked : LockedClient} {operation operation' : ClientImportOperation}
  {importBlock : BlockImportRequest} {newCache : List (Bytes × Bytes)} {outcome : ImportOutcome}

/-- A known block is imported again only when existing blocks are imported, and
an unknown one only when they are not. -/
theorem applyBlock_status
    (h : locked.applyBlock operation importBlock newCache = .ok (operation', outcome)) :
    (importBlock.importExisting = false ∧
      locked.blockStatus (locked.codec.hashHeader importBlock.post) = .ok .inChain ∧
      outcome = .alreadyInChain) ∨
    locked.blockStatus (locked.codec.hashHeader importBlock.post) =
        .ok (if importBlock.importExisting then .inChain else .unknown) ∧
      locked.info.finalizedNumber < importBlock.post.number ∧
      ∃ isNewBest, outcome = .imported isNewBest := by
  unfold applyBlock at h
  simp only [bind_eq_ok, ensure_eq_ok] at h
  obtain ⟨_, -, _, -, h⟩ := h
  rcases hfork : importBlock.forkChoice with _ | forkChoice
  · simp [hfork] at h
  simp only [hfork] at h
  unfold executeAndImportBlock at h
  simp only [bind_eq_ok, reading_eq_ok] at h
  obtain ⟨status, hstatus, h⟩ := h
  rcases hexisting : importBlock.importExisting <;> cases status <;>
    simp only [hexisting, pure_eq_ok, throw_ne_ok, Prod.mk.injEq] at h
  · exact Or.inl ⟨rfl, hstatus, h.2.symm⟩
  · obtain ⟨houtcome, middle, himports⟩ := importNew_cases hfork h
    exact Or.inr ⟨hstatus, himports.above, _, houtcome⟩
  · obtain ⟨houtcome, middle, himports⟩ := importNew_cases hfork h
    exact Or.inr ⟨hstatus, himports.above, _, houtcome⟩

variable {client : Client} {σ : Type} {store : Store σ} {reads : NotifyReads} {s : ClientState σ}

theorem Reflects.status_inChain (h : locked.Reflects client) {hash : Hash}
    (hstatus : locked.blockStatus hash = .ok .inChain) :
    ∃ number, client.backend.blockchain.number hash = .ok (some number) := by
  rw [h.blockStatus] at hstatus
  rcases hnumber : client.backend.blockchain.number hash with error | _ | number
  · simp [hnumber, Except.map] at hstatus
  · simp [hnumber, Except.map] at hstatus
  · exact ⟨number, rfl⟩

theorem Reflects.status_unknown (h : locked.Reflects client) {hash : Hash}
    (hstatus : locked.blockStatus hash = .ok .unknown) :
    client.backend.blockchain.number hash = .ok none := by
  rw [h.blockStatus] at hstatus
  rcases hnumber : client.backend.blockchain.number hash with error | _ | number
  · simp [hnumber, Except.map] at hstatus
  · rfl
  · simp [hnumber, Except.map] at hstatus

/-- A block whose import ends well was refused for its parent, was in the
chain, or is imported. -/
theorem importBlock_outcome (hreflects : locked.Reflects client)
    (h : (locked.importBlock store client none importBlock newCache reads s).1 = .ok outcome) :
    let hash := client.codec.hashHeader importBlock.post
    let admitted := client.AdmitsParent importBlock.header.parentHash importBlock.allowMissingState
    (¬ admitted ∧ ∃ result, outcome = .refused result) ∨
    (admitted ∧ importBlock.importExisting = false ∧ outcome = .alreadyInChain ∧
      ∃ number, client.backend.blockchain.number hash = .ok (some number)) ∨
    admitted ∧ client.backend.blockchain.info.finalizedNumber < importBlock.post.number ∧
      (∃ isNewBest, outcome = .imported isNewBest) ∧
      (importBlock.importExisting = false ∧ client.backend.blockchain.number hash = .ok none ∨
        importBlock.importExisting = true ∧
          ∃ number, client.backend.blockchain.number hash = .ok (some number)) := by
  intro hash admitted
  unfold LockedClient.importBlock at h
  rcases hprepare : importBlock.prepare client none with failure | ⟨_ | result, prepared⟩
  · simp [hprepare] at h
  · have hadmitted : admitted := (BlockImportRequest.prepare_eq_none_iff hprepare).mp rfl
    obtain ⟨hprepared, -⟩ := BlockImportRequest.prepare_cases hprepare
    rcases hrun : lockImportAndRun store (fun error ↦ error)
      (fun operation ↦ Prod.swap <$> locked.applyBlock operation prepared newCache) reads s with
      ⟨failure | outcome', t⟩
    · simp [hprepare, hrun, Except.mapError] at h
    obtain rfl : outcome' = outcome := by simpa [hprepare, hrun, Except.mapError] using h
    obtain ⟨operation, happly⟩ : ∃ operation,
        locked.applyBlock .begin prepared newCache = .ok (operation, outcome') := by
      rcases lockImportAndRun_cases hrun with ⟨-, ⟨failure, hfailure⟩, -⟩ |
        ⟨r, operation, backend, sends, channels, notified, hcommits, -, -, hresult⟩
      · simp at hfailure
      · rcases hresult with ⟨-, hr, -⟩ | ⟨failure, -, hfailure, -⟩
        · obtain ⟨⟨_, _⟩, happly, hswap⟩ := map_eq_ok.mp hcommits.ran
          obtain ⟨rfl, rfl⟩ := Prod.mk.inj hswap
          rw [Except.ok.inj hr]
          exact ⟨_, happly⟩
        · simp at hfailure
    have hstatus := applyBlock_status happly
    have hpost : prepared.post = importBlock.post := by rw [hprepared]; rfl
    have hexisting : prepared.importExisting = importBlock.importExisting := by rw [hprepared]
    rw [hpost, hexisting, hreflects.codec, hreflects.info] at hstatus
    right
    rcases hstatus with ⟨hnew, hstatus, houtcome⟩ | ⟨hstatus, habove, houtcome⟩
    · exact Or.inl ⟨hadmitted, hnew, houtcome, hreflects.status_inChain hstatus⟩
    · refine Or.inr ⟨hadmitted, habove, houtcome, ?_⟩
      cases hflag : importBlock.importExisting <;> rw [hflag] at hstatus
      · exact Or.inl ⟨rfl, hreflects.status_unknown hstatus⟩
      · exact Or.inr ⟨rfl, hreflects.status_inChain hstatus⟩
  · have hrefused : ¬ admitted :=
      mt (BlockImportRequest.prepare_eq_none_iff hprepare).mpr (Option.some_ne_none result)
    obtain rfl : ImportOutcome.refused result = outcome := by simpa [hprepare] using h
    exact Or.inl ⟨hrefused, result, rfl⟩

end LockedClient

/-! ## The prediction -/

/-- An import that ends with `Imported` was predicted to, and one that was
predicted to and ends well does. -/
def Predicts (checked : Except ConsensusError ImportOutcome)
    (imported : Except (Panic ⊕ ConsensusError) ImportOutcome) : Prop :=
  (∀ isNewBest, imported = .ok (.imported isNewBest) → checked = .ok (.imported false)) ∧
  ∀ outcome, checked = .ok (.imported false) → imported = .ok outcome →
    ∃ isNewBest, outcome = .imported isNewBest

/-- The block is in the chain without its state, existing blocks are imported,
and nothing stands against it otherwise. -/
structure Client.Reimports (client : Client) (importBlock : BlockImportRequest) : Prop where
  pruned : client.blockStatus none (.hash (client.codec.hashHeader importBlock.post)) =
    .ok .inChainPruned
  importExisting : importBlock.importExisting = true
  parent : client.AdmitsParent importBlock.header.parentHash importBlock.allowMissingState
  above : client.backend.blockchain.info.finalizedNumber < importBlock.header.number

theorem BlockImportParams.post_number (importBlock : BlockImportParams) :
    importBlock.post.number = importBlock.header.number := by
  rw [post_eq]

section Prediction

variable {client : Client} {blockRules : BlockRules} {importBlock : BlockImportRequest}
  {locked : LockedClient} {σ : Type} {store : Store σ} {newCache : List (Bytes × Bytes)}
  {reads : NotifyReads} {s : ClientState σ}

theorem predicts_of_not_reimports
    (hrules : blockRules.lookup importBlock.header.number
      (client.codec.hashHeader importBlock.post) = .notSpecial)
    (hreflects : locked.Reflects client) (h : ¬ client.Reimports importBlock) :
    Predicts (client.checkBlock blockRules none (importBlock.checkParams client.codec))
      (locked.importBlock store client none importBlock newCache reads s).1 := by
  have hcheck : client.checkBlock blockRules none (importBlock.checkParams client.codec) =
        .ok (.imported false) ↔
      false = false ∧
        client.AdmitsParent importBlock.header.parentHash importBlock.allowMissingState ∧
        (client.blockStatus none (.hash (client.codec.hashHeader importBlock.post)) =
            .ok .unknown ∨
          client.blockStatus none (.hash (client.codec.hashHeader importBlock.post)) =
            .ok .inChainWithState ∧ importBlock.importExisting = true) :=
    Client.checkBlock_eq_imported_iff hrules
  constructor
  · intro isNewBest himported
    rw [hcheck]
    rcases LockedClient.importBlock_outcome hreflects himported with ⟨-, result, hresult⟩ |
      ⟨-, -, houtcome, -⟩ | ⟨hadmitted, habove, -, hown⟩
    · cases hresult
    · cases houtcome
    · refine ⟨rfl, hadmitted, ?_⟩
      rcases hown with ⟨-, hnumber⟩ | ⟨hexisting, number, hnumber⟩
      · exact Or.inl (Client.blockStatus_of_number_none hnumber)
      · rcases Client.blockStatus_of_number hnumber with hstate | hpruned
        · exact Or.inr ⟨hstate, hexisting⟩
        · rw [BlockImportParams.post_number] at habove
          exact absurd ⟨hpruned, hexisting, hadmitted, habove⟩ h
  · intro outcome hchecked himported
    obtain ⟨-, hadmitted, hown⟩ := hcheck.mp hchecked
    rcases LockedClient.importBlock_outcome hreflects himported with ⟨hrefused, -⟩ |
      ⟨-, hnew, -, number, hnumber⟩ | ⟨-, -, houtcome, -⟩
    · exact absurd hadmitted hrefused
    · rcases hown with hunknown | ⟨-, hexisting⟩
      · rcases Client.blockStatus_of_number hnumber with hstatus | hstatus <;>
          cases hstatus.symm.trans hunknown
      · exact absurd (hnew.symm.trans hexisting) Bool.false_ne_true
    · exact houtcome

/-- The import of a bare header that is not to become the best block. -/
def BlockImportRequest.bare (importBlock : BlockImportRequest) : BlockImportRequest :=
  { importBlock with
    body := none
    storageChanges := none
    origin := .file
    justifications := none
    finalized := false
    auxiliary := []
    forkChoice := some (.custom false)
    intermediates := [] }

/-- A client under the lock that accepts every call. -/
def Client.accepting (client : Client) : LockedClient where
  codec := client.codec
  offchainIndexingApi := false
  info := client.backend.blockchain.info
  blockStatus hash := (client.backend.blockchain.number hash).map fun number ↦
    if number.isSome then .inChain else .unknown
  lastFinalized := .ok client.backend.blockchain.info.finalizedHash
  treeRoute _ _ := .error (.backend "no route")
  accepts _ _ := .ok ()

def acceptingStore : Store Unit := ⟨fun _ ↦ .ok (), fun _ _ ↦ .ok ()⟩

theorem reflects_accepting (client : Client) : client.accepting.Reflects client :=
  ⟨rfl, rfl, fun _ ↦ rfl⟩

theorem prepare_bare
    (h : client.AdmitsParent importBlock.header.parentHash importBlock.allowMissingState) :
    importBlock.bare.prepare client none = .ok (none, importBlock.bare) := by
  have hprepare : client.prepareBlockStorageChanges none importBlock.bare.toBlockImportParams =
      .ok (.ok (none, importBlock.bare.toBlockImportParams)) := by
    unfold Client.prepareBlockStorageChanges
    have hheader : importBlock.bare.header = importBlock.header := rfl
    have hmissing : importBlock.bare.allowMissingState = importBlock.allowMissingState := rfl
    rcases h with hstatus | ⟨hstatus, hallowed⟩
    · rw [hheader, hstatus]
      rfl
    · rw [hheader, hstatus, hmissing]
      exact if_pos hallowed
  rw [BlockImportRequest.prepare, hprepare]

theorem applyBlock_bare {number : BlockNumber}
    (hnumber : client.backend.blockchain.number (client.codec.hashHeader importBlock.post) =
      .ok (some number))
    (hexisting : importBlock.importExisting = true)
    (habove : client.backend.blockchain.info.finalizedNumber < importBlock.header.number) :
    client.accepting.applyBlock .begin importBlock.bare [] =
      .ok (⟨[.setBlockData importBlock.post none none .normal, .insertAux []], none, []⟩,
        .imported false) := by
  have hstatus : client.accepting.blockStatus (client.codec.hashHeader importBlock.post) =
      .ok .inChain := by
    simp [Client.accepting, hnumber, Except.map]
  have hflag : importBlock.bare.importExisting = true := hexisting
  have hbest : client.accepting.isNewBest importBlock.bare (.custom false) = false := rfl
  have hroute : client.accepting.routeFromBest importBlock.bare (.custom false) = .ok none := by
    simp [LockedClient.routeFromBest, hbest]
  have hheader : client.accepting.importHeader .begin importBlock.bare (.custom false) =
      .ok (⟨[.setBlockData importBlock.post none none .normal, .insertAux []], none, []⟩,
        .imported false) := by
    unfold LockedClient.importHeader
    simp only [bind_eq_ok, LockedClient.record_eq_ok, pure_eq_ok]
    exact ⟨none, hroute, _, ⟨rfl, rfl⟩, _, ⟨rfl, rfl⟩, rfl⟩
  unfold LockedClient.applyBlock
  simp only [bind_eq_ok, ensure_eq_ok]
  refine ⟨(), rfl, (), rfl, ?_⟩
  change client.accepting.executeAndImportBlock .begin importBlock.bare [] (.custom false) = _
  unfold LockedClient.executeAndImportBlock
  simp only [bind_eq_ok, reading_eq_ok]
  refine ⟨.inChain, hstatus, ?_⟩
  rw [hflag]
  change client.accepting.importNew .begin importBlock.bare [] (.custom false) = _
  unfold LockedClient.importNew
  simp only [bind_eq_ok, ensure_eq_ok]
  refine ⟨(), ?_, hheader⟩
  rw [BlockImportParams.post_number]
  exact habove

/-- A block that `Reimports` describes can be imported, though it was said to
be in the chain already. -/
theorem bare_imported (h : client.Reimports importBlock) (reads : NotifyReads) :
    (client.accepting.importBlock acceptingStore client none importBlock.bare [] reads
      ⟨(), ⟨[], [], []⟩⟩).1 = .ok (.imported false) := by
  obtain ⟨number, hnumber⟩ := Client.number_of_inChain h.pruned (Or.inr rfl)
  simp [LockedClient.importBlock, prepare_bare h.parent, lockImportAndRun, acceptingStore,
    applyBlock_bare hnumber h.importExisting h.above, ClientNotifies.notifyFinalized,
    Except.mapError]

/-- As far as `check_block` is told about blocks, they are the same. -/
structure BlockImportRequest.SameBlock (other importBlock : BlockImportRequest) : Prop where
  header : other.header = importBlock.header
  postDigests : other.postDigests = importBlock.postDigests
  allowMissingState : other.allowMissingState = importBlock.allowMissingState
  importExisting : other.importExisting = importBlock.importExisting

theorem BlockImportRequest.SameBlock.post {other importBlock : BlockImportRequest}
    (h : other.SameBlock importBlock) : other.post = importBlock.post := by
  rw [BlockImportParams.post, BlockImportParams.post, h.header, h.postDigests]

theorem BlockImportRequest.SameBlock.reimports {other importBlock : BlockImportRequest}
    (h : other.SameBlock importBlock) (hreimports : client.Reimports other) :
    client.Reimports importBlock where
  pruned := by
    rw [← h.post]
    exact hreimports.pruned
  importExisting := by
    rw [← h.importExisting]
    exact hreimports.importExisting
  parent := by
    rw [← h.header, ← h.allowMissingState]
    exact hreimports.parent
  above := by
    rw [← h.header]
    exact hreimports.above

/-- With no import in progress and a block that no rule is about, `check_block`
predicts `import_block` unless the block can be imported once more and is
pruned. -/
theorem check_predicts_import_iff (client : Client) (blockRules : BlockRules)
    (importBlock : BlockImportRequest)
    (hrules : blockRules.lookup importBlock.header.number
      (client.codec.hashHeader importBlock.post) = .notSpecial) :
    (∀ {σ : Type} (locked : LockedClient) (store : Store σ) (other : BlockImportRequest)
        (newCache : List (Bytes × Bytes)) (reads : NotifyReads) (s : ClientState σ),
        locked.Reflects client → other.SameBlock importBlock →
        Predicts (client.checkBlock blockRules none (other.checkParams client.codec))
          (locked.importBlock store client none other newCache reads s).1) ↔
      ¬ client.Reimports importBlock := by
  constructor
  · intro hpredicts hreimports
    have hsame : importBlock.bare.SameBlock importBlock := ⟨rfl, rfl, rfl, rfl⟩
    let reads : NotifyReads := ⟨fun _ ↦ ⟨.ok none, fun _ ↦ false⟩, fun _ ↦ false⟩
    have hchecked := (hpredicts client.accepting acceptingStore importBlock.bare [] reads
      ⟨(), ⟨[], [], []⟩⟩ (reflects_accepting client) hsame).1 false
      (bare_imported hreimports reads)
    have hcheck : client.checkBlock blockRules none (importBlock.bare.checkParams client.codec) =
        .ok .alreadyInChain := by
      unfold Client.checkBlock
      have hlookup : blockRules.lookup (importBlock.bare.checkParams client.codec).number
          (importBlock.bare.checkParams client.codec).hash = .notSpecial := hrules
      have hstatus : client.blockStatus none
          (.hash (importBlock.bare.checkParams client.codec).hash) = .ok .inChainPruned :=
        hreimports.pruned
      rw [hlookup, hstatus]
    rw [hcheck] at hchecked
    cases hchecked
  · intro hnot σ locked store other newCache reads s hreflects hsame
    refine predicts_of_not_reimports ?_ hreflects fun hreimports ↦ hnot (hsame.reimports hreimports)
    rw [hsame.post, hsame.header]
    exact hrules

end Prediction

namespace Sample

def noReads : NotifyReads := ⟨fun _ ↦ ⟨.ok none, fun _ ↦ false⟩, fun _ ↦ false⟩

/-- The three blocks, the last of which has lost its state. -/
def prunedBlocks : Client :=
  { threeBlocks with
    backend := { threeBlocks.backend with haveStateAt := fun hash _ ↦ hash ≠ [2, 6] } }

/-- The last of the three blocks, to be imported once more. -/
def existingBlock : BlockImportRequest :=
  { finalBlock none with
    header := ⟨[1, 5], 2, [6], [], [.seal [] []]⟩
    justifications := none
    finalized := false
    forkChoice := some (.custom false)
    importExisting := true }

end Sample

theorem check_predicts_import_final :
    Sample.threeBlocks.checkBlock (.new none none) none
        ((Sample.finalBlock none).checkParams Sample.codec) = .ok (.imported false) ∧
    Predicts (Sample.threeBlocks.checkBlock (.new none none) none
        ((Sample.finalBlock none).checkParams Sample.codec))
      (Sample.threeBlocks.accepting.importBlock acceptingStore Sample.threeBlocks none
        (Sample.finalBlock none) [] Sample.noReads ⟨(), ⟨[], [], []⟩⟩).1 := by
  have hnot : ¬ Sample.threeBlocks.Reimports (Sample.finalBlock none) := fun h ↦
    absurd h.importExisting (by decide)
  have hiff := check_predicts_import_iff Sample.threeBlocks (.new none none)
    (Sample.finalBlock none) rfl
  exact ⟨by decide +kernel,
    hiff.mpr hnot _ _ _ _ _ _ (reflects_accepting _) ⟨rfl, rfl, rfl, rfl⟩⟩

/-- A pruned block is said to be in the chain already, and is imported. -/
theorem check_misses_import :
    Sample.prunedBlocks.checkBlock (.new none none) none
        (Sample.existingBlock.checkParams Sample.codec) = .ok .alreadyInChain ∧
    (Sample.prunedBlocks.accepting.importBlock acceptingStore Sample.prunedBlocks none
        Sample.existingBlock [] Sample.noReads ⟨(), ⟨[], [], []⟩⟩).1 = .ok (.imported false) ∧
    ¬ Predicts (Sample.prunedBlocks.checkBlock (.new none none) none
        (Sample.existingBlock.checkParams Sample.codec))
      (Sample.prunedBlocks.accepting.importBlock acceptingStore Sample.prunedBlocks none
        Sample.existingBlock [] Sample.noReads ⟨(), ⟨[], [], []⟩⟩).1 := by
  have hchecked : Sample.prunedBlocks.checkBlock (.new none none) none
      (Sample.existingBlock.checkParams Sample.codec) = .ok .alreadyInChain := by
    decide +kernel
  have himported : (Sample.prunedBlocks.accepting.importBlock acceptingStore Sample.prunedBlocks
      none Sample.existingBlock [] Sample.noReads ⟨(), ⟨[], [], []⟩⟩).1 =
      .ok (.imported false) := by
    decide +kernel
  refine ⟨hchecked, himported, ?_⟩
  intro hpredicts
  cases hchecked.symm.trans (hpredicts.1 false himported)

end SubArchive
