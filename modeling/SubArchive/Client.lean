import SubArchive.Backend

/-!
# The client's call path

`LocalCallExecutor` and the part of `Client` that a runtime call goes through.
The wasm engine with `sp_state_machine` is the parameter `CodeExecutor`: from
the code, a state and the pending changes it computes a result and the new
pending changes.  It opens and closes its own transactions, so the layers of
the overlay below the current one are out of its reach.
-/

namespace SubArchive

open Results

abbrev StorageTransactionCache := Option Hash

structure CodeExecutor where
  call : (code : Bytes) → StateBackend → (method : String) → (callData : Bytes) →
    Changes × StorageTransactionCache →
    Except Error Bytes × (Changes × StorageTransactionCache)
  runtimeVersion : (code : Bytes) → Except Error RuntimeVersion

structure LocalCallExecutor where
  backend : Backend
  executor : CodeExecutor
  /-- `WasmOverride::get`, when overrides are configured -/
  wasmOverride : Option (ℕ → Option Bytes)

/-- `BackendRuntimeCode::runtime_code` -/
def StateBackend.runtimeCode (state : StateBackend) : Except Error Bytes :=
  match state.storage codeKey with
  | .ok (some code) => .ok code
  | _ => .error (.runtimeCode "`:code` hash not found")

namespace LocalCallExecutor

def runtimeVersion (executor : LocalCallExecutor) (id : BlockId) :
    Except Error RuntimeVersion := do
  executor.backend.changesTriesStateAtBlock id
  let state ← executor.backend.stateAt id
  let runtimeCode ← state.runtimeCode
  executor.executor.runtimeVersion runtimeCode

def checkOverride (executor : LocalCallExecutor) (onchainCode : Bytes) (id : BlockId) :
    Except Error Bytes :=
  match executor.wasmOverride with
  | none => .ok onchainCode
  | some get => do
      let spec := (← executor.runtimeVersion id).specVersion
      return (get spec).getD onchainCode

end LocalCallExecutor

/-- The overlay: the pending changes and, for every open transaction from the
innermost outwards, the changes that were pending when it was opened. -/
structure OverlayedChanges where
  changes : Changes
  transactions : List Changes
deriving DecidableEq, Repr

namespace OverlayedChanges

def default : OverlayedChanges := ⟨.empty, []⟩

def startTransaction (overlay : OverlayedChanges) : OverlayedChanges :=
  { overlay with transactions := overlay.changes :: overlay.transactions }

/-- `none` is `NoOpenTransaction`. -/
def commitTransaction (overlay : OverlayedChanges) : Option OverlayedChanges :=
  match overlay.transactions with
  | [] => none
  | _ :: transactions => some { overlay with transactions }

/-- `none` is `NoOpenTransaction`. -/
def rollbackTransaction (overlay : OverlayedChanges) : Option OverlayedChanges :=
  match overlay.transactions with
  | [] => none
  | changes :: transactions => some ⟨changes, transactions⟩

@[simp] theorem commitTransaction_mk (changes saved : Changes) (transactions : List Changes) :
    commitTransaction ⟨changes, saved :: transactions⟩ = some ⟨changes, transactions⟩ := rfl

@[simp] theorem rollbackTransaction_mk (changes saved : Changes) (transactions : List Changes) :
    rollbackTransaction ⟨changes, saved :: transactions⟩ = some ⟨saved, transactions⟩ := rfl

end OverlayedChanges

inductive InitializeBlock where
  | skip
  | run
deriving DecidableEq, Repr

/-- The fields of `MockRuntimeApiImpl` that its calls update; `call`, the
client, is passed along. -/
structure MockRuntimeApiImpl where
  initializedBlock : Option BlockId
  changes : OverlayedChanges
  storage : StorageTransactionCache
deriving DecidableEq, Repr

/-- A call on the API object: it may panic, and otherwise leaves a result and
the object. -/
abbrev ApiCall (α : Type) := MockRuntimeApiImpl → Except Panic (Except Error α × MockRuntimeApiImpl)

namespace LocalCallExecutor

/-- The part of `contextual_call` after the block is initialised, with no
proof recorder. -/
def callStateMachine (executor : LocalCallExecutor) (id : BlockId) (method : String)
    (callData : Bytes) (pending : Changes × StorageTransactionCache) :
    Except Error Bytes × (Changes × StorageTransactionCache) :=
  let prepared : Except Error (StateBackend × Bytes) := do
    executor.backend.changesTriesStateAtBlock id
    let state ← executor.backend.stateAt id
    let runtimeCode ← state.runtimeCode
    let runtimeCode ← executor.checkOverride runtimeCode id
    return (state, runtimeCode)
  match prepared with
  | .error error => (.error error, pending)
  | .ok (state, runtimeCode) =>
      executor.executor.call runtimeCode state method callData pending

theorem callStateMachine_congr {a b : LocalCallExecutor} {id : BlockId}
    (hexecutor : a.executor = b.executor) (hoverride : a.wasmOverride = b.wasmOverride)
    (htries : a.backend.changesTriesStateAtBlock id = b.backend.changesTriesStateAtBlock id)
    (hstate : a.backend.stateAt id = b.backend.stateAt id) (method : String) (callData : Bytes)
    (pending : Changes × StorageTransactionCache) :
    a.callStateMachine id method callData pending =
      b.callStateMachine id method callData pending := by
  have hversion : a.runtimeVersion id = b.runtimeVersion id := by
    simp only [runtimeVersion, htries, hstate, hexecutor]
  have hcheck : ∀ code, a.checkOverride code id = b.checkOverride code id := by
    intro code
    simp only [checkOverride, hoverride, hversion]
  simp only [callStateMachine, htries, hstate, hcheck, hexecutor]

theorem callStateMachine_of_state {executor : LocalCallExecutor} {id : BlockId}
    {state : StateBackend} {onchainCode code : Bytes}
    (htries : executor.backend.changesTriesStateAtBlock id = .ok ())
    (hstate : executor.backend.stateAt id = .ok state)
    (honchain : state.runtimeCode = .ok onchainCode)
    (hcode : executor.checkOverride onchainCode id = .ok code) (method : String)
    (callData : Bytes) (pending : Changes × StorageTransactionCache) :
    executor.callStateMachine id method callData pending =
      executor.executor.call code state method callData pending := by
  simp [callStateMachine, htries, hstate, honchain, hcode]

theorem callStateMachine_eq_ok {executor : LocalCallExecutor} {id : BlockId} {method : String}
    {callData bytes : Bytes} {pending : Changes × StorageTransactionCache}
    (h : (executor.callStateMachine id method callData pending).1 = .ok bytes) :
    ∃ state onchainCode code, executor.backend.changesTriesStateAtBlock id = .ok () ∧
      executor.backend.stateAt id = .ok state ∧ state.runtimeCode = .ok onchainCode ∧
      executor.checkOverride onchainCode id = .ok code := by
  unfold callStateMachine at h
  rcases htries : executor.backend.changesTriesStateAtBlock id with error | _
  · simp [htries] at h
  rcases hstate : executor.backend.stateAt id with error | state
  · simp [htries, hstate] at h
  rcases honchain : state.runtimeCode with error | onchainCode
  · simp [htries, hstate, honchain] at h
  rcases hcode : executor.checkOverride onchainCode id with error | code
  · simp [htries, hstate, honchain, hcode] at h
  exact ⟨state, onchainCode, code, rfl, rfl, honchain, hcode⟩

def contextualCall (executor : LocalCallExecutor) (initializeBlockFn : ApiCall Unit)
    (id : BlockId) (method : String) (callData : Bytes) (initializeBlock : InitializeBlock) :
    ApiCall Bytes := fun api ↦ do
  let (initialized, api) ←
    if initializeBlock = .run ∧ api.initializedBlock ≠ some id then initializeBlockFn api
    else pure (.ok (), api)
  match initialized with
  | .error error => return (.error error, api)
  | .ok () =>
      let (result, changes, storage) :=
        executor.callStateMachine id method callData (api.changes.changes, api.storage)
      return (result, { api with changes := { api.changes with changes }, storage })

theorem contextualCall_eq_ok {executor : LocalCallExecutor} {initializeBlockFn : ApiCall Unit}
    {id : BlockId} {method : String} {callData bytes : Bytes} {initializeBlock : InitializeBlock}
    {api api' : MockRuntimeApiImpl}
    (h : executor.contextualCall initializeBlockFn id method callData initializeBlock api =
      .ok (.ok bytes, api')) :
    ∃ pending, (executor.callStateMachine id method callData pending).1 = .ok bytes := by
  unfold contextualCall at h
  simp only [ok_bind, pure_eq] at h
  split at h
  · rcases hinit : initializeBlockFn api with panic | ⟨error | _, api₁⟩
    · simp [hinit] at h
    · simp [hinit] at h
    · simp only [hinit, ok_bind, Except.ok.injEq, Prod.mk.injEq] at h
      exact ⟨_, h.1⟩
  · simp only [Except.ok.injEq, Prod.mk.injEq] at h
    exact ⟨_, h.1⟩

end LocalCallExecutor

structure Client where
  backend : Backend
  executor : LocalCallExecutor
  codec : Codec

namespace Client

def runtimeVersionAt (client : Client) (id : BlockId) : Except Error RuntimeVersion :=
  client.executor.runtimeVersion id

/-- The header of an empty block on top of `parent`. -/
def prepareEnvironmentBlock (client : Client) (parent : BlockId) : Except Error Header := do
  let parentHash ← client.backend.blockchain.expectBlockHashFromId parent
  let number ← client.backend.blockchain.expectBlockNumberFromId parent
  return ⟨parentHash, number + 1, [], [], []⟩

/-- `call_api_at`, with the `initialize_block` of `params.core_api` as an
argument. -/
def callApiAt (client : Client) (coreInitializeBlock : BlockId → Header → ApiCall Unit)
    (id : BlockId) (function : String) (arguments : Bytes) (initializeBlock : InitializeBlock) :
    ApiCall Bytes :=
  client.executor.contextualCall
    (fun api ↦
      match client.prepareEnvironmentBlock id with
      | .error error => .ok (.error error, api)
      | .ok header => do
          let (result, api) ← coreInitializeBlock id header api
          return (result.mapError Error.runtimeApiError, api))
    id function arguments initializeBlock

end Client

end SubArchive
