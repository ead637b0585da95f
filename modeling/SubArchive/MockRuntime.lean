import SubArchive.Client

/-!
# The mock runtime API

`MockRuntimeApiImpl` runs every method as a runtime call inside a transaction
of the overlay.
-/

namespace SubArchive

open Results

structure StorageChanges where
  mainStorageChanges : List (Bytes × Option Bytes)
  childStorageChanges : List (Bytes × List (Bytes × Option Bytes))
  transactionStorageRoot : Hash
deriving DecidableEq, Repr

namespace MockRuntimeApiImpl

/-- `construct_runtime_api` -/
def new : MockRuntimeApiImpl := ⟨none, .default, none⟩

/-- The common body of `_call_api_at` and `_call_api_at_native_code`. -/
def callApiAtNativeCode (client : Client)
    (coreInitializeBlock : BlockId → Header → ApiCall Unit) (method : String) (initBlock : Bool)
    (id : BlockId) (args : Bytes) : ApiCall Bytes := fun api ↦ do
  let api := { api with changes := api.changes.startTransaction }
  let initializeBlock := if !initBlock then InitializeBlock.skip else .run
  let (res, api) ← client.callApiAt coreInitializeBlock id method args initializeBlock api
  match res with
  | .ok _ =>
      match api.changes.commitTransaction with
      | some changes => return (res, { api with changes })
      | none => throw "commit error!"
  | .error _ =>
      match api.changes.rollbackTransaction with
      | some changes => return (res, { api with changes })
      | none => throw "rollback error!"

/-- `_call_api_at`: the same with the result decoded. -/
def callApiAt {α : Type} (client : Client)
    (coreInitializeBlock : BlockId → Header → ApiCall Unit) (method : String) (initBlock : Bool)
    (id : BlockId) (args : Bytes) (decode : Bytes → Option α) : ApiCall α := fun api ↦ do
  let (res, api) ← callApiAtNativeCode client coreInitializeBlock method initBlock id args api
  let decoded := res.bind fun bytes ↦
    match decode bytes with
    | some value => .ok value
    | none => .error (.failedToDecodeReturnValue method)
  return (decoded, api)

/-- Stands for `initialize_block` below a call that skips it. -/
def noInitialization : BlockId → Header → ApiCall Unit :=
  fun _ _ api ↦ .ok (.ok (), api)

def executeBlock (client : Client) (id : BlockId) (block : Block) : ApiCall Unit :=
  callApiAt client noInitialization "Core_execute_block" false id
    (client.codec.encodeBlock block) (fun _ ↦ some ())

/-- The marker is set whatever the call returned. -/
def initializeBlock (client : Client) (id : BlockId) (header : Header) : ApiCall Unit :=
  fun api ↦
    match client.runtimeVersionAt id with
    | .error error => .ok (.error error, api)
    | .ok version => do
        let method :=
          if version.apis.any fun (s, v) ↦ s = coreApiId && v < 2 then "Core_initialise_block"
          else "Core_initialize_block"
        let (res, api) ← callApiAt client noInitialization method false id
          (client.codec.encodeHeader header) (fun _ ↦ some ()) api
        return (res, { api with initializedBlock := some id })

def metadata (client : Client) (id : BlockId) : ApiCall Bytes :=
  callApiAt client (initializeBlock client) "Metadata_metadata" true id []
    client.codec.decodeBytes

/-- `Core_execute_block_runtime_api_impl`, which `execute_block_with_context`
ends in; the result stays encoded. -/
def executeBlockWithContext (client : Client) (id : BlockId) (block : Block) : ApiCall Bytes :=
  callApiAtNativeCode client noInitialization "Core_execute_block" false id
    (client.codec.encodeBlock block)

/-- The pending changes with their root: the one the runtime asked for last,
or else the root over `backend`.  The API object is left as new. -/
def intoStorageChanges (backend : StateBackend) (api : MockRuntimeApiImpl) :
    Except String StorageChanges × MockRuntimeApiImpl :=
  let root : Except String Hash :=
    match api.storage with
    | some root => .ok root
    | none => backend.storageRoot api.changes.changes
  (root.map fun root ↦ ⟨api.changes.changes.main, api.changes.changes.child, root⟩, new)

theorem intoStorageChanges_isOk {backend : StateBackend} (api : MockRuntimeApiImpl)
    (hroot : ∀ changes, ∃ root, backend.storageRoot changes = .ok root) :
    ∃ storages, (api.intoStorageChanges backend).1 = .ok storages := by
  unfold intoStorageChanges
  rcases api.storage with _ | root
  · obtain ⟨root, hroot⟩ := hroot api.changes.changes
    simp [hroot, Except.map]
  · simp [Except.map]

/-! ## What calls return -/

theorem callApiAtNativeCode_eq_ok {client : Client} {core : BlockId → Header → ApiCall Unit}
    {method : String} {initBlock : Bool} {id : BlockId} {args bytes : Bytes}
    {api api' : MockRuntimeApiImpl}
    (h : callApiAtNativeCode client core method initBlock id args api = .ok (.ok bytes, api')) :
    ∃ pending, (client.executor.callStateMachine id method args pending).1 = .ok bytes := by
  unfold callApiAtNativeCode at h
  obtain ⟨⟨res, api₁⟩, hcall, h⟩ := bind_eq_ok.mp h
  have hres : res = .ok bytes := by
    rcases res with error | bytes'
    · rcases hrollback : api₁.changes.rollbackTransaction with _ | changes <;>
        simp [hrollback] at h
    · rcases hcommit : api₁.changes.commitTransaction with _ | changes
      · simp [hcommit] at h
      · simp only [hcommit, pure_eq, Except.ok.injEq, Prod.mk.injEq] at h
        exact congrArg Except.ok h.1
  rw [hres] at hcall
  exact LocalCallExecutor.contextualCall_eq_ok hcall

theorem callApiAt_eq_ok {α : Type} {client : Client} {core : BlockId → Header → ApiCall Unit}
    {method : String} {initBlock : Bool} {id : BlockId} {args : Bytes} {decode : Bytes → Option α}
    {value : α} {api api' : MockRuntimeApiImpl}
    (h : callApiAt client core method initBlock id args decode api = .ok (.ok value, api')) :
    ∃ bytes pending, decode bytes = some value ∧
      (client.executor.callStateMachine id method args pending).1 = .ok bytes := by
  unfold callApiAt at h
  rcases hcall : callApiAtNativeCode client core method initBlock id args api with
    panic | ⟨error | bytes, api₁⟩
  · simp [hcall] at h
  · simp [hcall] at h
  · obtain ⟨pending, hpending⟩ := callApiAtNativeCode_eq_ok hcall
    rcases hdecode : decode bytes with _ | value'
    · simp [hcall, hdecode] at h
    · obtain ⟨rfl, -⟩ : value' = value ∧ api₁ = api' := by
        simpa [hcall, hdecode] using h
      exact ⟨bytes, pending, hdecode, hpending⟩

/-! ## What a call without initialisation does -/

/-- The API object after a transaction around the engine's outcome `out`: the
changes stay when it succeeded and are taken back when it failed. -/
def settle (api : MockRuntimeApiImpl)
    (out : Except Error Bytes × (Changes × StorageTransactionCache)) : MockRuntimeApiImpl :=
  match out with
  | (.ok _, changes, storage) => { api with changes := { api.changes with changes }, storage }
  | (.error _, _, storage) => { api with storage }

theorem callApiAtNativeCode_skip (client : Client)
    (core : BlockId → Header → ApiCall Unit) (method : String) (id : BlockId) (args : Bytes)
    (api : MockRuntimeApiImpl) :
    callApiAtNativeCode client core method false id args api =
      let out := client.executor.callStateMachine id method args
        (api.changes.changes, api.storage)
      .ok (out.1, api.settle out) := by
  rcases hout : client.executor.callStateMachine id method args
    (api.changes.changes, api.storage) with ⟨res, changes, storage⟩
  cases res with
  | ok bytes =>
      simp [callApiAtNativeCode, Client.callApiAt, LocalCallExecutor.contextualCall,
        OverlayedChanges.startTransaction, hout, settle]
  | error error =>
      simp [callApiAtNativeCode, Client.callApiAt, LocalCallExecutor.contextualCall,
        OverlayedChanges.startTransaction, hout, settle]

/-- The engine's run of `Core_execute_block` on a new API object. -/
def executeBlockOutcome (client : Client) (id : BlockId) (block : Block) :
    Except Error Bytes × (Changes × StorageTransactionCache) :=
  client.executor.callStateMachine id "Core_execute_block" (client.codec.encodeBlock block)
    (.empty, none)

theorem executeBlockWithContext_new (client : Client) (id : BlockId) (block : Block) :
    executeBlockWithContext client id block new =
      .ok ((executeBlockOutcome client id block).1,
        new.settle (executeBlockOutcome client id block)) :=
  callApiAtNativeCode_skip client noInitialization _ id _ new

theorem executeBlock_new (client : Client) (id : BlockId) (block : Block) :
    executeBlock client id block new =
      .ok ((executeBlockOutcome client id block).1.map fun _ ↦ (),
        new.settle (executeBlockOutcome client id block)) := by
  have hcall := executeBlockWithContext_new client id block
  unfold executeBlockWithContext at hcall
  unfold executeBlock callApiAt
  rw [hcall]
  rcases (executeBlockOutcome client id block).1 with error | bytes <;> rfl

end MockRuntimeApiImpl

end SubArchive
