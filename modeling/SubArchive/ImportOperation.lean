import SubArchive.Import
import SubArchive.Library.Ancestry

/-!
# Import operations

`Client::apply_block` and `Client::apply_finality_with_block_hash` record their
effects in an operation, which is committed as a whole.  They run under the
lock for imports.
-/

namespace SubArchive

open Results

inductive BlockOrigin where
  | genesis
  | networkInitialSync
  | networkBroadcast
  | consensusBroadcast
  | own
  | file
deriving DecidableEq, Repr

inductive ForkChoiceStrategy where
  | longestChain
  | custom (isNewBest : Bool)
deriving DecidableEq, Repr

inductive NewBlockState where
  | normal
  | best
  | final
deriving DecidableEq, Repr

/-- `blockchain::BlockStatus` -/
inductive ChainStatus where
  | inChain
  | unknown
deriving DecidableEq, Repr

/-- The route between two blocks, by their hashes. -/
structure TreeRoute where
  retracted : List Hash
  common : Hash
  enacted : List Hash
deriving DecidableEq, Repr

/-- `BlockImportParams` with the fields that only `apply_block` reads. -/
structure BlockImportRequest extends BlockImportParams where
  origin : BlockOrigin
  justifications : Option Justifications
  finalized : Bool
  auxiliary : List (Bytes × Option Bytes)
  forkChoice : Option ForkChoiceStrategy
  intermediates : List Bytes
  importExisting : Bool
deriving DecidableEq, Repr

/-- `ImportResult` with the results of `apply_block`. -/
inductive ImportOutcome where
  | refused (result : ImportResult)
  | alreadyInChain
  | imported (isNewBest : Bool)
deriving DecidableEq, Repr

/-! ## Preparing a block -/

/-- `prepare_block_storage_changes` on the whole parameters. -/
def BlockImportRequest.prepare (importBlock : BlockImportRequest) (client : Client)
    (importingBlock : Option Hash) :
    Except (Panic ⊕ Error) (Option ImportResult × BlockImportRequest) :=
  match client.prepareBlockStorageChanges importingBlock importBlock.toBlockImportParams with
  | .error panic => .error (.inl panic)
  | .ok (.error error) => .error (.inr error)
  | .ok (.ok (result, params)) =>
      .ok (result, { importBlock with toBlockImportParams := params })

/-- The parent's state is there, and so are storage changes or a body to
execute. -/
def BlockImportRequest.EnactsState (importBlock : BlockImportRequest) (client : Client)
    (importingBlock : Option Hash) : Prop :=
  (client.blockStatus importingBlock (.hash importBlock.header.parentHash) = .ok .inChainWithState ∨
    client.blockStatus importingBlock (.hash importBlock.header.parentHash) = .ok .queued) ∧
  (importBlock.storageChanges.isSome = true ∨ importBlock.body.isSome = true)

/-- Preparing a block changes its storage changes only, and has some when it
enacts the state. -/
theorem Client.prepareBlockStorageChanges_cases {client : Client} {importingBlock : Option Hash}
    {importBlock prepared : BlockImportParams}
    (h : client.prepareBlockStorageChanges importingBlock importBlock =
      .ok (.ok (none, prepared))) :
    prepared = { importBlock with storageChanges := prepared.storageChanges } ∧
      (prepared.storageChanges.isSome = true ↔
        (client.blockStatus importingBlock (.hash importBlock.header.parentHash) =
            .ok .inChainWithState ∨
          client.blockStatus importingBlock (.hash importBlock.header.parentHash) =
            .ok .queued) ∧
        (importBlock.storageChanges.isSome = true ∨ importBlock.body.isSome = true)) := by
  obtain ⟨header, postDigests, body, storages, allowMissingState⟩ := importBlock
  unfold prepareBlockStorageChanges at h
  have hexecuted : ∀ body, client.executeForImport
      ⟨header, postDigests, some body, none, allowMissingState⟩ body =
        .ok (.ok (none, prepared)) →
      ∃ storages, prepared = ⟨header, postDigests, some body, some storages, allowMissingState⟩ := by
    intro body hexecute
    obtain ⟨_, _, storages, -, -, -, -, heq⟩ := executeForImport_eq_ok hexecute
    exact ⟨storages, heq⟩
  rcases hstatus : client.blockStatus importingBlock (.hash header.parentHash) with error | status
  · simp [hstatus] at h
  · simp only [hstatus] at h
    by_cases henacts : status = .inChainWithState ∨ status = .queued
    · rcases storages with _ | storages
      · rcases body with _ | body
        · obtain rfl : _ = prepared := by
            rcases henacts with rfl | rfl <;> simpa using h
          simp
        · obtain ⟨storages, rfl⟩ : ∃ storages, prepared =
              ⟨header, postDigests, some body, some storages, allowMissingState⟩ := by
            rcases henacts with rfl | rfl <;> exact hexecuted body h
          simpa using henacts
      · obtain rfl : _ = prepared := by
          rcases henacts with rfl | rfl <;> simpa using h
        simpa using henacts
    · cases status
      · simp at henacts
      · simp at henacts
      · simp only at h
        split at h
        · obtain rfl : _ = prepared := by simpa using h
          simp
        · simp at h
      · simp at h
      · simp at h

theorem BlockImportRequest.prepare_cases {importBlock prepared : BlockImportRequest}
    {client : Client} {importingBlock : Option Hash}
    (h : importBlock.prepare client importingBlock = .ok (none, prepared)) :
    prepared = { importBlock with storageChanges := prepared.storageChanges } ∧
      (prepared.storageChanges.isSome = true ↔ importBlock.EnactsState client importingBlock) := by
  unfold prepare at h
  rcases hprepare : client.prepareBlockStorageChanges importingBlock
    importBlock.toBlockImportParams with panic | error | ⟨result, params⟩
  · simp [hprepare] at h
  · simp [hprepare] at h
  · obtain ⟨rfl, rfl⟩ : result = none ∧ _ = prepared := by simpa [hprepare] using h
    obtain ⟨hparams, henacts⟩ := Client.prepareBlockStorageChanges_cases hprepare
    refine ⟨?_, henacts⟩
    rw [hparams]

/-! ## Operations -/

/-- The calls on a `BlockImportOperation`. -/
inductive OpCall where
  | beginStateOperation (parent : Hash)
  | updateCache (cache : List (Bytes × Bytes))
  | updateOffchainStorage
  | updateDbStorage (root : Hash)
  | updateStorage (changes : Changes)
  | updateTransactionIndex
  | setBlockData (header : Header) (body : Option (List Bytes))
      (justifications : Option Justifications) (state : NewBlockState)
  | insertAux (auxiliary : List (Bytes × Option Bytes))
  | markHead (hash : Hash)
  | markFinalized (hash : Hash) (justification : Option Justification)
deriving DecidableEq, Repr

/-- The block that the call makes final. -/
def OpCall.final? (codec : Codec) : OpCall → Option Hash
  | .markFinalized hash _ => some hash
  | .setBlockData header _ _ .final => some (codec.hashHeader header)
  | _ => none

/-- Calls that mark blocks which are stored already. -/
def OpCall.isMark : OpCall → Bool
  | .markHead _ | .markFinalized _ _ => true
  | _ => false

/-- The blocks that an operation makes final, in its order. -/
def finals (codec : Codec) (op : List OpCall) : List Hash := op.filterMap (OpCall.final? codec)

@[simp] theorem finals_append (codec : Codec) (op op' : List OpCall) :
    finals codec (op ++ op') = finals codec op ++ finals codec op' :=
  List.filterMap_append

structure ImportSummary where
  hash : Hash
  origin : BlockOrigin
  header : Header
  isNewBest : Bool
  storageChanges : Option Changes
  treeRoute : Option TreeRoute
deriving DecidableEq, Repr

structure ClientImportOperation where
  op : List OpCall
  notifyImported : Option ImportSummary
  notifyFinalized : List Hash
deriving DecidableEq, Repr

namespace ClientImportOperation

def begin : ClientImportOperation := ⟨[], none, []⟩

/-- The operation after further calls. -/
def calling (operation : ClientImportOperation) (calls : List OpCall) : ClientImportOperation :=
  { operation with op := operation.op ++ calls }

variable (operation : ClientImportOperation) (calls calls' : List OpCall)

@[simp] theorem calling_nil : operation.calling [] = operation := by
  simp [calling]

@[simp] theorem calling_calling :
    (operation.calling calls).calling calls' = operation.calling (calls ++ calls') := by
  simp [calling]

@[simp] theorem op_calling : (operation.calling calls).op = operation.op ++ calls := rfl

@[simp] theorem notifyFinalized_calling :
    (operation.calling calls).notifyFinalized = operation.notifyFinalized := rfl

@[simp] theorem notifyImported_calling :
    (operation.calling calls).notifyImported = operation.notifyImported := rfl

end ClientImportOperation

/-- `make_notifications` -/
def BlockOrigin.makesNotifications : BlockOrigin → Bool
  | .networkBroadcast | .own | .consensusBroadcast => true
  | .genesis | .networkInitialSync | .file => false

/-- `MAX_TO_NOTIFY` -/
def maxToNotify : ℕ := 256

/-- The finalized blocks that are notified: the last ones, when tons of blocks
are finalized at once. -/
def toNotify (notify : Bool) (enacted : List Hash) : List Hash :=
  if notify then enacted.drop (enacted.length - min enacted.length maxToNotify) else []

theorem toNotify_sublist (notify : Bool) (enacted : List Hash) :
    (toNotify notify enacted).Sublist enacted := by
  unfold toNotify
  split
  · exact List.drop_sublist _ _
  · exact List.nil_sublist _

theorem toNotify_eq_self {enacted : List Hash} (h : enacted.length ≤ maxToNotify) :
    toNotify true enacted = enacted := by
  rw [toNotify, if_pos rfl, Nat.min_eq_left h, Nat.sub_self, List.drop_zero]

/-- The client with its configuration, and what the backend answers under the
lock for imports. -/
structure LockedClient where
  codec : Codec
  offchainIndexingApi : Bool
  info : Info
  blockStatus : Hash → Except Error ChainStatus
  lastFinalized : Except Error Hash
  treeRoute : Hash → Hash → Except Error TreeRoute
  /-- what the operation says to a further call -/
  accepts : List OpCall → OpCall → Except Error Unit

/-- A result that passes on an error, with panics beside errors. -/
def reading {α : Type} (result : Except Error α) : Except (Panic ⊕ Error) α :=
  result.mapError .inr

@[simp] theorem reading_eq_ok {α : Type} {result : Except Error α} {a : α} :
    reading result = .ok a ↔ result = .ok a := by
  cases result <;> simp [reading, Except.mapError]

/-- Go on only when `c` holds. -/
def ensure (c : Prop) [Decidable c] (failure : Panic ⊕ Error) : Except (Panic ⊕ Error) Unit :=
  if c then .ok () else .error failure

@[simp] theorem ensure_eq_ok {c : Prop} [Decidable c] {failure : Panic ⊕ Error} {u : Unit} :
    ensure c failure = .ok u ↔ c := by
  by_cases hc : c <;> simp [ensure, hc]

namespace LockedClient

def record (client : LockedClient) (operation : ClientImportOperation) (call : OpCall) :
    Except (Panic ⊕ Error) ClientImportOperation := do
  reading (client.accepts operation.op call)
  return operation.calling [call]

def recordWhen (client : LockedClient) (c : Prop) [Decidable c]
    (operation : ClientImportOperation) (call : OpCall) :
    Except (Panic ⊕ Error) ClientImportOperation :=
  if c then client.record operation call else .ok operation

def applyFinalityWithBlockHash (client : LockedClient) (operation : ClientImportOperation)
    (block : Hash) (justification : Option Justification) (bestBlock : Hash) (notify : Bool) :
    Except (Panic ⊕ Error) ClientImportOperation := do
  let lastFinalized ← reading client.lastFinalized
  if block = lastFinalized then return operation
  let routeFromFinalized ← reading (client.treeRoute lastFinalized block)
  ensure (routeFromFinalized.retracted = []) (.inr .notInFinalizedChain)
  let routeFromBest ← reading (client.treeRoute bestBlock block)
  let operation ← client.recordWhen (routeFromBest.common ≠ block) operation (.markHead block)
  let enacted := routeFromFinalized.enacted
  ensure (enacted ≠ []) (.inl "assertion failed: !enacted.is_empty()")
  let operation ← enacted.dropLast.foldlM (fun operation hash ↦
    client.record operation (.markFinalized hash none)) operation
  ensure (enacted.getLast? = some block) (.inl "assertion failed: `(left == right)`")
  let operation ← client.record operation (.markFinalized block justification)
  return { operation with
    notifyFinalized := operation.notifyFinalized ++ toNotify notify enacted }

/-- The finality of the parent in `execute_and_import_block`. -/
def finalizeParent (client : LockedClient) (operation : ClientImportOperation)
    (importBlock : BlockImportRequest) : Except (Panic ⊕ Error) ClientImportOperation :=
  -- ensure parent block is finalized to maintain invariant that finality is
  -- called sequentially
  if importBlock.finalized then
    client.applyFinalityWithBlockHash operation importBlock.post.parentHash none
      client.info.bestHash importBlock.origin.makesNotifications
  else .ok operation

/-- The branch of `execute_and_import_block` for a block with storage
changes. -/
def enactStorageChanges (client : LockedClient) (operation : ClientImportOperation)
    (importBlock : BlockImportRequest) (newCache : List (Bytes × Bytes))
    (storages : StorageChanges) : Except (Panic ⊕ Error) ClientImportOperation := do
  let operation ← client.record operation (.beginStateOperation importBlock.post.parentHash)
  let operation ← client.finalizeParent operation importBlock
  let operation := operation.calling [.updateCache newCache]
  let operation ← client.recordWhen client.offchainIndexingApi operation .updateOffchainStorage
  let operation ← client.record operation (.updateDbStorage storages.transactionStorageRoot)
  let operation ← client.record operation
    (.updateStorage ⟨storages.mainStorageChanges, storages.childStorageChanges⟩)
  client.record operation .updateTransactionIndex

def isNewBest (client : LockedClient) (importBlock : BlockImportRequest)
    (forkChoice : ForkChoiceStrategy) : Bool :=
  importBlock.finalized ||
    match forkChoice with
    | .longestChain => importBlock.post.number > client.info.bestNumber
    | .custom v => v

def leafState (client : LockedClient) (importBlock : BlockImportRequest)
    (forkChoice : ForkChoiceStrategy) : NewBlockState :=
  if importBlock.finalized then .final
  else if client.isNewBest importBlock forkChoice then .best
  else .normal

def routeFromBest (client : LockedClient) (importBlock : BlockImportRequest)
    (forkChoice : ForkChoiceStrategy) : Except (Panic ⊕ Error) (Option TreeRoute) :=
  if client.isNewBest importBlock forkChoice = true ∧
      client.info.bestHash ≠ importBlock.post.parentHash then
    some <$> reading (client.treeRoute client.info.bestHash importBlock.post.parentHash)
  else .ok none

/-- What `execute_and_import_block` queues to be notified. -/
def queueNotifications (client : LockedClient) (operation : ClientImportOperation)
    (importBlock : BlockImportRequest) (forkChoice : ForkChoiceStrategy)
    (treeRoute : Option TreeRoute) : ClientImportOperation :=
  if importBlock.origin.makesNotifications || treeRoute.isSome then
    let hash := client.codec.hashHeader importBlock.post
    { op := operation.op
      notifyFinalized := operation.notifyFinalized ++ if importBlock.finalized then [hash] else []
      notifyImported := some {
        hash
        origin := importBlock.origin
        header := importBlock.post
        isNewBest := client.isNewBest importBlock forkChoice
        storageChanges := importBlock.storageChanges.map fun storages ↦
          ⟨storages.mainStorageChanges, storages.childStorageChanges⟩
        treeRoute } }
  else operation

/-- `execute_and_import_block` from the choice of the best block on. -/
def importHeader (client : LockedClient) (operation : ClientImportOperation)
    (importBlock : BlockImportRequest) (forkChoice : ForkChoiceStrategy) :
    Except (Panic ⊕ Error) (ClientImportOperation × ImportOutcome) := do
  let treeRoute ← client.routeFromBest importBlock forkChoice
  let operation ← client.record operation (.setBlockData importBlock.post importBlock.body
    importBlock.justifications (client.leafState importBlock forkChoice))
  let operation ← client.record operation (.insertAux importBlock.auxiliary)
  return (client.queueNotifications operation importBlock forkChoice treeRoute,
    .imported (client.isNewBest importBlock forkChoice))

/-- `execute_and_import_block` after the check of the block's status. -/
def importNew (client : LockedClient) (operation : ClientImportOperation)
    (importBlock : BlockImportRequest) (newCache : List (Bytes × Bytes))
    (forkChoice : ForkChoiceStrategy) :
    Except (Panic ⊕ Error) (ClientImportOperation × ImportOutcome) := do
  ensure (client.info.finalizedNumber < importBlock.post.number) (.inr .notInFinalizedChain)
  match importBlock.storageChanges with
  | some storages =>
      let operation ← client.enactStorageChanges operation importBlock newCache storages
      client.importHeader operation importBlock forkChoice
  | none => client.importHeader operation importBlock forkChoice

def executeAndImportBlock (client : LockedClient) (operation : ClientImportOperation)
    (importBlock : BlockImportRequest) (newCache : List (Bytes × Bytes))
    (forkChoice : ForkChoiceStrategy) :
    Except (Panic ⊕ Error) (ClientImportOperation × ImportOutcome) := do
  let hash := client.codec.hashHeader importBlock.post
  let status ← reading (client.blockStatus hash)
  match importBlock.importExisting, status with
  | false, .inChain => return (operation, .alreadyInChain)
  | false, .unknown => client.importNew operation importBlock newCache forkChoice
  | true, .inChain => client.importNew operation importBlock newCache forkChoice
  | true, .unknown => throw (.inr (.unknownBlock s!"{repr hash}"))

def applyBlock (client : LockedClient) (operation : ClientImportOperation)
    (importBlock : BlockImportRequest) (newCache : List (Bytes × Bytes)) :
    Except (Panic ⊕ Error) (ClientImportOperation × ImportOutcome) := do
  ensure (importBlock.justifications.isSome && importBlock.finalized ||
    importBlock.justifications.isNone)
    (.inl "assertion failed: justifications.is_some() && finalized || justifications.is_none()")
  ensure (importBlock.intermediates = []) (.inr .incompletePipeline)
  match importBlock.forkChoice with
  | none => throw (.inr .incompletePipeline)
  | some forkChoice => client.executeAndImportBlock operation importBlock newCache forkChoice

/-! ## What an operation records -/

variable {client : LockedClient} {operation operation' : ClientImportOperation}

@[simp] theorem record_eq_ok {call : OpCall} :
    client.record operation call = .ok operation' ↔
      client.accepts operation.op call = .ok () ∧ operation' = operation.calling [call] := by
  unfold record
  simp only [bind_eq_ok, reading_eq_ok, pure_eq_ok]
  constructor
  · rintro ⟨_, haccepts, rfl⟩
    exact ⟨haccepts, rfl⟩
  · rintro ⟨haccepts, rfl⟩
    exact ⟨(), haccepts, rfl⟩

theorem recordWhen_eq_ok {c : Prop} [Decidable c] {call : OpCall}
    (h : client.recordWhen c operation call = .ok operation') :
    operation' = operation.calling (if c then [call] else []) := by
  unfold recordWhen at h
  by_cases hc : c
  · rw [if_pos hc] at h ⊢
    exact (record_eq_ok.mp h).2
  · rw [if_neg hc, Except.ok.injEq] at h
    rw [if_neg hc, ClientImportOperation.calling_nil, h]

theorem foldlM_markFinalized {hashes : List Hash}
    (h : hashes.foldlM (fun operation hash ↦ client.record operation (.markFinalized hash none))
      operation = .ok operation') :
    operation' = operation.calling (hashes.map (.markFinalized · none)) := by
  induction hashes generalizing operation with
  | nil =>
      obtain rfl := pure_eq_ok.mp h
      simp
  | cons hash hashes ih =>
      rw [List.foldlM_cons, bind_eq_ok] at h
      obtain ⟨middle, hfirst, hrest⟩ := h
      obtain ⟨-, rfl⟩ := record_eq_ok.mp hfirst
      rw [ih hrest]
      simp

/-- The calls that finalize the enacted part of a route. -/
def finalityCalls (block : Hash) (justification : Option Justification) (enacted : List Hash) :
    List OpCall :=
  enacted.dropLast.map (.markFinalized · none) ++ [.markFinalized block justification]

/-- Finality is applied by marks along the enacted part of the route from the
last finalized block; the last of them are queued when it notifies. -/
theorem applyFinality_cases {block bestBlock : Hash} {justification : Option Justification}
    {notify : Bool}
    (h : client.applyFinalityWithBlockHash operation block justification bestBlock notify =
      .ok operation') :
    (client.lastFinalized = .ok block ∧ operation' = operation) ∨
    ∃ lastFinalized route head, client.lastFinalized = .ok lastFinalized ∧
      client.treeRoute lastFinalized block = .ok route ∧ route.retracted = [] ∧
      (head = [] ∨ head = [.markHead block]) ∧ route.enacted.getLast? = some block ∧
      operation' = {
        op := operation.op ++ head ++ finalityCalls block justification route.enacted
        notifyImported := operation.notifyImported
        notifyFinalized := operation.notifyFinalized ++ toNotify notify route.enacted } := by
  unfold applyFinalityWithBlockHash at h
  simp only [bind_eq_ok, reading_eq_ok] at h
  obtain ⟨lastFinalized, hlast, h⟩ := h
  by_cases hsame : block = lastFinalized
  · subst hsame
    rw [if_pos rfl, pure_eq_ok] at h
    exact Or.inl ⟨hlast, h.symm⟩
  · rw [if_neg hsame] at h
    simp only [bind_eq_ok, reading_eq_ok, ensure_eq_ok, record_eq_ok, pure_eq_ok] at h
    obtain ⟨route, hroute, _, hretracted, fromBest, -, _, hhead, _, -, _, hmarks, _, hlast', _,
      ⟨-, rfl⟩, rfl⟩ := h
    rw [recordWhen_eq_ok hhead] at hmarks
    rw [foldlM_markFinalized hmarks]
    refine Or.inr ⟨lastFinalized, route, if fromBest.common ≠ block then [.markHead block] else [],
      hlast, hroute, hretracted, ?_, hlast', ?_⟩
    · exact (ite_eq_or_eq _ _ _).symm
    · simp [finalityCalls]

theorem finals_finalityCalls {codec : Codec} {block : Hash}
    {justification : Option Justification} {enacted : List Hash}
    (hlast : enacted.getLast? = some block) :
    finals codec (finalityCalls block justification enacted) = enacted := by
  have hmarks : ∀ hashes : List Hash,
      finals codec (hashes.map (OpCall.markFinalized · none)) = hashes := by
    intro hashes
    rw [finals, List.filterMap_map]
    exact List.filterMap_some
  rw [finalityCalls, finals_append, hmarks]
  exact List.dropLast_append_getLast? block hlast

/-- The calls finalize the blocks from the last finalized one down to `block`,
and `more` of them are queued. -/
structure Finalizes (client : LockedClient) (block : Hash) (notify : Bool)
    (calls : List OpCall) (more : List Hash) : Prop where
  route : (client.lastFinalized = .ok block ∧ calls = []) ∨
    ∃ lastFinalized route, client.lastFinalized = .ok lastFinalized ∧
      client.treeRoute lastFinalized block = .ok route ∧ route.retracted = [] ∧
      route.enacted.getLast? = some block ∧ finals client.codec calls = route.enacted
  marks : ∀ call ∈ calls, call.isMark = true
  queued : more.Sublist (finals client.codec calls)
  all : notify = true → (finals client.codec calls).length ≤ maxToNotify →
    more = finals client.codec calls

theorem applyFinality_finalizes {block bestBlock : Hash} {justification : Option Justification}
    {notify : Bool}
    (h : client.applyFinalityWithBlockHash operation block justification bestBlock notify =
      .ok operation') :
    ∃ calls more, client.Finalizes block notify calls more ∧
      operation' = ⟨operation.op ++ calls, operation.notifyImported,
        operation.notifyFinalized ++ more⟩ := by
  rcases applyFinality_cases h with ⟨hlast, rfl⟩ |
    ⟨lastFinalized, route, head, hlast, hroute, hretracted, hhead, hblock, rfl⟩
  · refine ⟨[], [], ⟨Or.inl ⟨hlast, rfl⟩, by simp, List.nil_sublist _, fun _ _ ↦ rfl⟩, by simp⟩
  · have hfinals : finals client.codec (head ++ finalityCalls block justification route.enacted) =
        route.enacted := by
      rw [finals_append, finals_finalityCalls hblock]
      rcases hhead with rfl | rfl <;> rfl
    have hmarks : ∀ call ∈ head ++ finalityCalls block justification route.enacted,
        call.isMark = true := by
      intro call hcall
      rcases List.mem_append.mp hcall with hcall | hcall
      · rcases hhead with rfl | rfl
        · simp at hcall
        · rw [List.mem_singleton.mp hcall]
          rfl
      · rcases List.mem_append.mp hcall with hcall | hcall
        · obtain ⟨hash, -, rfl⟩ := List.mem_map.mp hcall
          rfl
        · rw [List.mem_singleton.mp hcall]
          rfl
    refine ⟨head ++ finalityCalls block justification route.enacted, toNotify notify route.enacted,
      ⟨Or.inr ⟨lastFinalized, route, hlast, hroute, hretracted, hblock, hfinals⟩, hmarks, ?_, ?_⟩,
      by rw [List.append_assoc]⟩
    · rw [hfinals]
      exact toNotify_sublist notify route.enacted
    · rintro rfl hlength
      rw [hfinals] at hlength ⊢
      exact toNotify_eq_self hlength

/-- Finality of the parent comes only with a block that is final itself. -/
theorem finalizeParent_cases {importBlock : BlockImportRequest}
    (h : client.finalizeParent operation importBlock = .ok operation') :
    (importBlock.finalized = false ∧ operation' = operation) ∨
    importBlock.finalized = true ∧ ∃ calls more,
      client.Finalizes importBlock.post.parentHash importBlock.origin.makesNotifications calls
        more ∧
      operation' = ⟨operation.op ++ calls, operation.notifyImported,
        operation.notifyFinalized ++ more⟩ := by
  unfold finalizeParent at h
  rcases hfinalized : importBlock.finalized
  · rw [hfinalized, if_neg Bool.false_ne_true, Except.ok.injEq] at h
    exact Or.inl ⟨rfl, h.symm⟩
  · rw [if_pos hfinalized] at h
    exact Or.inr ⟨rfl, applyFinality_finalizes h⟩

theorem enactStorageChanges_cases {importBlock : BlockImportRequest}
    {newCache : List (Bytes × Bytes)} {storages : StorageChanges}
    (h : client.enactStorageChanges operation importBlock newCache storages = .ok operation') :
    ∃ middle, client.finalizeParent
        (operation.calling [.beginStateOperation importBlock.post.parentHash]) importBlock =
          .ok middle ∧
      operation' = middle.calling ([.updateCache newCache] ++
        (if client.offchainIndexingApi then [.updateOffchainStorage] else []) ++
        [.updateDbStorage storages.transactionStorageRoot,
          .updateStorage ⟨storages.mainStorageChanges, storages.childStorageChanges⟩,
          .updateTransactionIndex]) := by
  unfold enactStorageChanges at h
  simp only [bind_eq_ok, record_eq_ok] at h
  obtain ⟨_, ⟨-, rfl⟩, middle, hparent, _, hoffchain, _, ⟨-, rfl⟩, _, ⟨-, rfl⟩, -, rfl⟩ := h
  refine ⟨middle, hparent, ?_⟩
  rw [recordWhen_eq_ok hoffchain]
  simp

@[simp] theorem op_queueNotifications {importBlock : BlockImportRequest}
    {forkChoice : ForkChoiceStrategy} {treeRoute : Option TreeRoute} :
    (client.queueNotifications operation importBlock forkChoice treeRoute).op = operation.op := by
  unfold queueNotifications
  split <;> rfl

/-- The calls that every imported block ends in. -/
def headerCalls (client : LockedClient) (importBlock : BlockImportRequest)
    (forkChoice : ForkChoiceStrategy) : List OpCall :=
  [.setBlockData importBlock.post importBlock.body importBlock.justifications
    (client.leafState importBlock forkChoice), .insertAux importBlock.auxiliary]

variable {importBlock : BlockImportRequest} {newCache : List (Bytes × Bytes)}
  {forkChoice : ForkChoiceStrategy} {outcome : ImportOutcome}

theorem importHeader_cases
    (h : client.importHeader operation importBlock forkChoice = .ok (operation', outcome)) :
    outcome = .imported (client.isNewBest importBlock forkChoice) ∧
      ∃ treeRoute, operation' = client.queueNotifications
        (operation.calling (client.headerCalls importBlock forkChoice)) importBlock forkChoice
        treeRoute := by
  unfold importHeader at h
  simp only [bind_eq_ok, record_eq_ok, pure_eq_ok, Prod.mk.injEq] at h
  obtain ⟨treeRoute, -, _, ⟨-, rfl⟩, _, ⟨-, rfl⟩, rfl, rfl⟩ := h
  exact ⟨rfl, treeRoute, by simp [headerCalls]⟩

/-- A block that is imported gets its storage changes enacted, if it has some,
and its header stored. -/
structure Imports (client : LockedClient) (operation : ClientImportOperation)
    (importBlock : BlockImportRequest) (newCache : List (Bytes × Bytes))
    (forkChoice : ForkChoiceStrategy) (middle operation' : ClientImportOperation) : Prop where
  chosen : importBlock.forkChoice = some forkChoice
  above : client.info.finalizedNumber < importBlock.post.number
  withoutChanges : importBlock.storageChanges = none → middle = operation
  withChanges : ∀ storages, importBlock.storageChanges = some storages →
    client.enactStorageChanges operation importBlock newCache storages = .ok middle
  stored : ∃ treeRoute, operation' = client.queueNotifications
    (middle.calling (client.headerCalls importBlock forkChoice)) importBlock forkChoice treeRoute

theorem importNew_cases (hfork : importBlock.forkChoice = some forkChoice)
    (h : client.importNew operation importBlock newCache forkChoice = .ok (operation', outcome)) :
    outcome = .imported (client.isNewBest importBlock forkChoice) ∧
      ∃ middle, client.Imports operation importBlock newCache forkChoice middle operation' := by
  unfold importNew at h
  rw [bind_eq_ok] at h
  obtain ⟨_, habove, h⟩ := h
  rw [ensure_eq_ok] at habove
  rcases hstorages : importBlock.storageChanges with _ | storages
  · simp only [hstorages] at h
    obtain ⟨houtcome, hstored⟩ := importHeader_cases h
    exact ⟨houtcome, operation, hfork, habove, fun _ ↦ rfl, by simp [hstorages], hstored⟩
  · simp only [hstorages, bind_eq_ok] at h
    obtain ⟨middle, henact, h⟩ := h
    obtain ⟨houtcome, hstored⟩ := importHeader_cases h
    refine ⟨houtcome, middle, hfork, habove, by simp [hstorages], ?_, hstored⟩
    intro storages' hstorages'
    obtain rfl : storages = storages' := by simpa [hstorages] using hstorages'
    exact henact

theorem applyBlock_cases
    (h : client.applyBlock operation importBlock newCache = .ok (operation', outcome)) :
    (outcome = .alreadyInChain ∧ operation' = operation) ∨
    ∃ forkChoice middle, outcome = .imported (client.isNewBest importBlock forkChoice) ∧
      client.Imports operation importBlock newCache forkChoice middle operation' := by
  unfold applyBlock at h
  simp only [bind_eq_ok, ensure_eq_ok] at h
  obtain ⟨_, -, _, -, h⟩ := h
  rcases hfork : importBlock.forkChoice with _ | forkChoice
  · simp [hfork] at h
  · simp only [hfork] at h
    unfold executeAndImportBlock at h
    simp only [bind_eq_ok, reading_eq_ok] at h
    obtain ⟨status, -, h⟩ := h
    rcases hexisting : importBlock.importExisting <;> cases status <;>
      simp only [hexisting, pure_eq_ok, throw_ne_ok, Prod.mk.injEq] at h
    · exact Or.inl ⟨h.2.symm, h.1.symm⟩
    · obtain ⟨houtcome, middle, himports⟩ := importNew_cases hfork h
      exact Or.inr ⟨forkChoice, middle, houtcome, himports⟩
    · obtain ⟨houtcome, middle, himports⟩ := importNew_cases hfork h
      exact Or.inr ⟨forkChoice, middle, houtcome, himports⟩

/-- The blocks an import makes final are those that finalizing the parent
marks, when it comes to that, and the new block if it is final. -/
theorem Imports.finals {middle : ClientImportOperation}
    (h : client.Imports .begin importBlock newCache forkChoice middle operation') :
    ∃ marked queued, SubArchive.finals client.codec operation'.op =
        marked ++ (if importBlock.finalized then [client.codec.hashHeader importBlock.post]
          else []) ∧
      operation'.notifyFinalized.Sublist (queued ++
        if importBlock.finalized then [client.codec.hashHeader importBlock.post] else []) ∧
      queued.Sublist marked ∧
      ((importBlock.storageChanges = none ∨ importBlock.finalized = false) ∧ marked = [] ∨
        importBlock.storageChanges.isSome = true ∧ importBlock.finalized = true ∧
        ∃ calls, client.Finalizes importBlock.post.parentHash
          importBlock.origin.makesNotifications calls queued ∧
          marked = SubArchive.finals client.codec calls) := by
  obtain ⟨treeRoute, rfl⟩ := h.stored
  have hheader : SubArchive.finals client.codec (client.headerCalls importBlock forkChoice) =
      if importBlock.finalized then [client.codec.hashHeader importBlock.post] else [] := by
    cases hfinalized : importBlock.finalized <;>
      cases hbest : client.isNewBest importBlock forkChoice <;>
      simp [SubArchive.finals, headerCalls, leafState, hfinalized, hbest, OpCall.final?]
  have hqueue : (client.queueNotifications
      (middle.calling (client.headerCalls importBlock forkChoice)) importBlock forkChoice
        treeRoute).notifyFinalized.Sublist (middle.notifyFinalized ++
          if importBlock.finalized then [client.codec.hashHeader importBlock.post] else []) := by
    unfold queueNotifications
    split
    · exact List.Sublist.refl _
    · exact List.sublist_append_left _ _
  rw [op_queueNotifications, ClientImportOperation.op_calling, finals_append, hheader]
  rcases hstorages : importBlock.storageChanges with _ | storages
  · obtain rfl := h.withoutChanges hstorages
    exact ⟨[], [], rfl, hqueue, .slnil, Or.inl ⟨Or.inl rfl, rfl⟩⟩
  · obtain ⟨parent, hparent, rfl⟩ := enactStorageChanges_cases (h.withChanges storages hstorages)
    have henacted : SubArchive.finals client.codec ([.updateCache newCache] ++
        (if client.offchainIndexingApi then [.updateOffchainStorage] else []) ++
        [.updateDbStorage storages.transactionStorageRoot,
          .updateStorage ⟨storages.mainStorageChanges, storages.childStorageChanges⟩,
          .updateTransactionIndex]) = [] := by
      split <;> rfl
    rcases finalizeParent_cases hparent with ⟨hfinalized, rfl⟩ |
      ⟨hfinalized, calls, more, hfinalizes, rfl⟩
    · refine ⟨[], [], ?_, hqueue, .slnil, Or.inl ⟨Or.inr hfinalized, rfl⟩⟩
      rw [ClientImportOperation.op_calling, finals_append, henacted]
      rfl
    · refine ⟨SubArchive.finals client.codec calls, more, ?_, hqueue, hfinalizes.queued,
        Or.inr ⟨rfl, hfinalized, calls, hfinalizes, rfl⟩⟩
      rw [ClientImportOperation.op_calling, finals_append, henacted, List.append_nil,
        ClientImportOperation.op_calling, finals_append]
      rfl

end LockedClient

end SubArchive
