import SubArchive.Initialization

/-!
# Nested transactions of the mock runtime API

`execute_in_transaction` runs a closure that may go on calling the API object,
other transactions included.  Such a closure is a program here: its operations
and, after each, what it does with the answer.  A program has a second meaning
on the pending changes alone, with no transactions, and the API object computes
that one.
-/

namespace SubArchive

open Results

inductive TransactionOutcome (α : Type) where
  | commit (value : α)
  | rollback (value : α)
deriving DecidableEq, Repr

namespace TransactionOutcome

variable {α : Type}

def intoInner : TransactionOutcome α → α
  | commit value => value
  | rollback value => value

def isCommit : TransactionOutcome α → Bool
  | commit _ => true
  | rollback _ => false

end TransactionOutcome

namespace MockRuntimeApiImpl

def commitOrRollback (commit : Bool) (api : MockRuntimeApiImpl) :
    Except Panic MockRuntimeApiImpl :=
  let proof := "We only close a transaction when we opened one ourself.\n\t\t\t\t\t" ++
    "Other parts of the runtime that make use of transactions (state-machine)\n\t\t\t\t\t" ++
    "also balance their transactions. The runtime cannot close client initiated\n\t\t\t\t\t" ++
    "transactions. qed"
  let closed :=
    if commit then api.changes.commitTransaction else api.changes.rollbackTransaction
  match closed with
  | some changes => .ok { api with changes }
  | none => .error proof

def executeInTransaction {α : Type}
    (call : MockRuntimeApiImpl → Except Panic (TransactionOutcome α × MockRuntimeApiImpl))
    (api : MockRuntimeApiImpl) : Except Panic (α × MockRuntimeApiImpl) := do
  let api := { api with changes := api.changes.startTransaction }
  let (res, api) ← call api
  let api ← api.commitOrRollback res.isCommit
  return (res.intoInner, api)

end MockRuntimeApiImpl

/-! ## Programs -/

/-- The calls of the API object, each with the type of its answer. -/
inductive ApiOperation : Type → Type 1 where
  | callApiAt {α : Type} (client : Client) (method : String) (initBlock : Bool) (id : BlockId)
      (args : Bytes) (decode : Bytes → Option α) : ApiOperation (Except Error α)
  | callApiAtNativeCode (client : Client) (method : String) (initBlock : Bool) (id : BlockId)
      (args : Bytes) : ApiOperation (Except Error Bytes)
  | initializeBlock (client : Client) (id : BlockId) (header : Header) :
      ApiOperation (Except Error Unit)

inductive ApiProgram : Type → Type 1 where
  | ret {α : Type} (value : α) : ApiProgram α
  | operation {α β : Type} (op : ApiOperation β) (rest : β → ApiProgram α) : ApiProgram α
  | executeInTransaction {α β : Type} (call : ApiProgram (TransactionOutcome β))
      (rest : β → ApiProgram α) : ApiProgram α

namespace ApiOperation

def run {α : Type} : ApiOperation α → MockRuntimeApiImpl → Except Panic (α × MockRuntimeApiImpl)
  | callApiAt client method initBlock id args decode =>
      MockRuntimeApiImpl.callApiAt client (MockRuntimeApiImpl.initializeBlock client) method
        initBlock id args decode
  | callApiAtNativeCode client method initBlock id args =>
      MockRuntimeApiImpl.callApiAtNativeCode client (MockRuntimeApiImpl.initializeBlock client)
        method initBlock id args
  | initializeBlock client id header => MockRuntimeApiImpl.initializeBlock client id header

end ApiOperation

def ApiProgram.run {α : Type} :
    ApiProgram α → MockRuntimeApiImpl → Except Panic (α × MockRuntimeApiImpl)
  | ret value, api => .ok (value, api)
  | operation op rest, api => do
      let (answer, api) ← op.run api
      (rest answer).run api
  | executeInTransaction call rest, api => do
      let (value, api) ← api.executeInTransaction call.run
      (rest value).run api

/-! ## The pending changes alone -/

/-- The API object without its transactions. -/
structure Pending where
  initializedBlock : Option BlockId
  changes : Changes
  storage : StorageTransactionCache
deriving DecidableEq, Repr

def MockRuntimeApiImpl.pending (api : MockRuntimeApiImpl) : Pending :=
  ⟨api.initializedBlock, api.changes.changes, api.storage⟩

def MockRuntimeApiImpl.withPending (api : MockRuntimeApiImpl) (s : Pending) :
    MockRuntimeApiImpl :=
  ⟨s.initializedBlock, ⟨s.changes, api.changes.transactions⟩, s.storage⟩

namespace Pending

/-- Back to the changes of `start`, as far as the changes go. -/
def restore (s start : Pending) : Pending := { s with changes := start.changes }

def settle (s : Pending) (out : Except Error Bytes × (Changes × StorageTransactionCache)) :
    Pending :=
  match out with
  | (.ok _, changes, storage) => { s with changes, storage }
  | (.error _, _, storage) => { s with storage }

def initializeBlock (client : Client) (id : BlockId) (header : Header) (s : Pending) :
    Except Error Unit × Pending :=
  match client.runtimeVersionAt id with
  | .error error => (.error error, s)
  | .ok version =>
      let method :=
        if version.apis.any fun (s, v) ↦ s = coreApiId && v < 2 then "Core_initialise_block"
        else "Core_initialize_block"
      let out := client.executor.callStateMachine id method (client.codec.encodeHeader header)
        (s.changes, s.storage)
      (out.1.map fun _ ↦ (), { s.settle out with initializedBlock := some id })

/-- What stands before the method of a call. -/
def prepare (client : Client) (initBlock : Bool) (id : BlockId) (s : Pending) :
    Except Error Unit × Pending :=
  if initBlock = true ∧ s.initializedBlock ≠ some id then
    match client.prepareEnvironmentBlock id with
    | .error error => (.error error, s)
    | .ok header =>
        let (result, s) := s.initializeBlock client id header
        (result.mapError Error.runtimeApiError, s)
  else (.ok (), s)

/-- A failed call takes back its initialisation as well. -/
def call (client : Client) (method : String) (initBlock : Bool) (id : BlockId) (args : Bytes)
    (s : Pending) : Except Error Bytes × Pending :=
  let (prepared, t) := s.prepare client initBlock id
  match prepared with
  | .error error => (.error error, t.restore s)
  | .ok () =>
      let out := client.executor.callStateMachine id method args (t.changes, t.storage)
      match out.1 with
      | .ok bytes => (.ok bytes, t.settle out)
      | .error error => (.error error, (t.settle out).restore s)

end Pending

def decodeAnswer {α : Type} (method : String) (decode : Bytes → Option α)
    (res : Except Error Bytes) : Except Error α :=
  res.bind fun bytes ↦
    match decode bytes with
    | some value => .ok value
    | none => .error (.failedToDecodeReturnValue method)

def ApiOperation.meaning {α : Type} : ApiOperation α → Pending → α × Pending
  | callApiAt client method initBlock id args decode, s =>
      (decodeAnswer method decode (s.call client method initBlock id args).1,
        (s.call client method initBlock id args).2)
  | callApiAtNativeCode client method initBlock id args, s =>
      s.call client method initBlock id args
  | initializeBlock client id header, s => s.initializeBlock client id header

def ApiProgram.meaning {α : Type} : ApiProgram α → Pending → α × Pending
  | ret value, s => (value, s)
  | operation op rest, s =>
      let (answer, s) := op.meaning s
      (rest answer).meaning s
  | executeInTransaction call rest, s =>
      match call.meaning s with
      | (.commit value, t) => (rest value).meaning t
      | (.rollback value, t) => (rest value).meaning (t.restore s)

/-! ## The API object computes the meaning -/

namespace MockRuntimeApiImpl

variable (api : MockRuntimeApiImpl) (s : Pending)

theorem settle_eq (out : Except Error Bytes × (Changes × StorageTransactionCache)) :
    api.settle out = api.withPending (api.pending.settle out) := by
  rcases out with ⟨error | bytes, changes, storage⟩ <;> rfl

/-- The API object with one more transaction open. -/
def opened (api : MockRuntimeApiImpl) : MockRuntimeApiImpl :=
  { api with changes := api.changes.startTransaction }

@[simp] theorem pending_opened : api.opened.pending = api.pending := rfl

theorem commitOrRollback_opened (commit : Bool) :
    (api.opened.withPending s).commitOrRollback commit =
      .ok (api.withPending (if commit then s else s.restore api.pending)) := by
  cases commit <;> rfl

theorem initializeBlock_eq (client : Client) (id : BlockId) (header : Header) :
    initializeBlock client id header api =
      .ok ((api.pending.initializeBlock client id header).1,
        api.withPending (api.pending.initializeBlock client id header).2) := by
  unfold initializeBlock Pending.initializeBlock
  rcases client.runtimeVersionAt id with error | version
  · rfl
  · simp only [callApiAt, callApiAtNativeCode_skip, settle_eq, pending, ok_bind, pure_eq]
    generalize client.executor.callStateMachine id _ (client.codec.encodeHeader header)
      (api.changes.changes, api.storage) = out
    rcases out with ⟨error | bytes, changes, storage⟩ <;> rfl

/-- A call up to the end of its transaction. -/
theorem callApiAt_eq (client : Client) (method : String) (initBlock : Bool) (id : BlockId)
    (args : Bytes) :
    client.callApiAt (initializeBlock client) id method args
        (if !initBlock then .skip else .run) api =
      match api.pending.prepare client initBlock id with
      | (.error error, t) => .ok (.error error, api.withPending t)
      | (.ok (), t) =>
          let out := client.executor.callStateMachine id method args (t.changes, t.storage)
          .ok (out.1, api.withPending ⟨t.initializedBlock, out.2.1, out.2.2⟩) := by
  have hinit : ((if (!initBlock) = true then InitializeBlock.skip else .run) = .run ∧
      api.initializedBlock ≠ some id) ↔
      (initBlock = true ∧ api.pending.initializedBlock ≠ some id) := by
    cases initBlock <;> simp [pending]
  unfold Client.callApiAt LocalCallExecutor.contextualCall Pending.prepare
  by_cases h : initBlock = true ∧ api.pending.initializedBlock ≠ some id
  · rw [if_pos h, if_pos (hinit.mpr h)]
    rcases hheader : client.prepareEnvironmentBlock id with error | header
    · rfl
    · simp only [initializeBlock_eq, ok_bind, pure_eq]
      rcases (api.pending.initializeBlock client id header) with ⟨error | _, t⟩ <;> rfl
  · rw [if_neg h, if_neg (mt hinit.mp h)]
    rfl

theorem callApiAtNativeCode_eq (client : Client) (method : String) (initBlock : Bool)
    (id : BlockId) (args : Bytes) :
    callApiAtNativeCode client (initializeBlock client) method initBlock id args api =
      .ok ((api.pending.call client method initBlock id args).1,
        api.withPending (api.pending.call client method initBlock id args).2) := by
  have hcall := callApiAt_eq api.opened client method initBlock id args
  rw [pending_opened] at hcall
  unfold callApiAtNativeCode Pending.call
  rcases hprepare : api.pending.prepare client initBlock id with ⟨error | _, t⟩
  · rw [hprepare] at hcall
    exact bind_of_ok hcall _
  · rw [hprepare] at hcall
    refine (bind_of_ok hcall _).trans ?_
    dsimp only
    rcases client.executor.callStateMachine id method args (t.changes, t.storage) with
      ⟨error | bytes, changes, storage⟩
    · rfl
    · rfl

end MockRuntimeApiImpl

theorem ApiOperation.run_eq {α : Type} (op : ApiOperation α) (api : MockRuntimeApiImpl) :
    op.run api = .ok ((op.meaning api.pending).1, api.withPending (op.meaning api.pending).2) := by
  cases op with
  | callApiAt client method initBlock id args decode =>
      exact bind_of_ok (api.callApiAtNativeCode_eq client method initBlock id args) _
  | callApiAtNativeCode client method initBlock id args =>
      exact api.callApiAtNativeCode_eq client method initBlock id args
  | initializeBlock client id header => exact api.initializeBlock_eq client id header

theorem MockRuntimeApiImpl.executeInTransaction_eq {α : Type} (api : MockRuntimeApiImpl)
    {call : MockRuntimeApiImpl → Except Panic (TransactionOutcome α × MockRuntimeApiImpl)}
    {res : TransactionOutcome α} {t : Pending}
    (hcall : call api.opened = .ok (res, api.opened.withPending t)) :
    api.executeInTransaction call =
      .ok (res.intoInner, api.withPending (if res.isCommit then t else t.restore api.pending)) := by
  calc api.executeInTransaction call
      = ((api.opened.withPending t).commitOrRollback res.isCommit).bind
          fun api ↦ .ok (res.intoInner, api) := bind_of_ok hcall _
    _ = _ := bind_of_ok (api.commitOrRollback_opened t res.isCommit) _

/-- The API object computes the meaning of every program, whatever transactions
are open around it. -/
theorem ApiProgram.run_eq {α : Type} (program : ApiProgram α) (api : MockRuntimeApiImpl) :
    program.run api =
      .ok ((program.meaning api.pending).1, api.withPending (program.meaning api.pending).2) := by
  induction program generalizing api with
  | ret value => rfl
  | operation op rest ih =>
      calc (operation op rest).run api
          = (rest (op.meaning api.pending).1).run (api.withPending (op.meaning api.pending).2) :=
            bind_of_ok (op.run_eq api) _
        _ = _ := ih _ _
  | executeInTransaction call rest ihcall ihrest =>
      have hcall := api.executeInTransaction_eq (ihcall api.opened)
      rw [MockRuntimeApiImpl.pending_opened] at hcall
      refine (bind_of_ok hcall _).trans ((ihrest _ _).trans ?_)
      rw [meaning]
      rcases call.meaning api.pending with ⟨value | value, t⟩
      · rfl
      · rfl

/-! ## What failing calls and rollbacks leave -/

namespace Pending

variable {client : Client} {method : String} {initBlock : Bool} {id : BlockId} {args : Bytes}
  {header : Header} {error : Error} {s : Pending}

theorem changes_of_call_error (h : (s.call client method initBlock id args).1 = .error error) :
    (s.call client method initBlock id args).2.changes = s.changes := by
  revert h
  unfold call
  rcases s.prepare client initBlock id with ⟨_ | _, t⟩
  · intro _
    rfl
  · dsimp only
    rcases client.executor.callStateMachine id method args (t.changes, t.storage) with
      ⟨_ | bytes, out⟩
    · intro _
      rfl
    · intro h
      simp at h

theorem changes_of_initializeBlock_error
    (h : (s.initializeBlock client id header).1 = .error error) :
    (s.initializeBlock client id header).2.changes = s.changes := by
  revert h
  unfold initializeBlock
  rcases client.runtimeVersionAt id with _ | version
  · intro _
    rfl
  · dsimp only
    generalize client.executor.callStateMachine id _ (client.codec.encodeHeader header)
      (s.changes, s.storage) = out
    rcases out with ⟨_ | bytes, changes, storage⟩
    · intro _
      rfl
    · intro h
      simp [Except.map] at h

end Pending

namespace MockRuntimeApiImpl

theorem changes_eq {api after : MockRuntimeApiImpl}
    (hchanges : after.changes.changes = api.changes.changes)
    (htransactions : after.changes.transactions = api.changes.transactions) :
    after.changes = api.changes := by
  rcases api with ⟨_, ⟨_, _⟩, _⟩
  rcases after with ⟨_, ⟨_, _⟩, _⟩
  simp_all

/-- No program meets a commit or rollback without an open transaction, and each
leaves the transactions it found.  A failing call and a rolled back transaction
leave the whole overlay as they found it. -/
theorem transactions_balanced {α : Type} (program : ApiProgram α) (api : MockRuntimeApiImpl) :
    (∃ value after, program.run api = .ok (value, after) ∧
      after.changes.transactions = api.changes.transactions) ∧
    (∀ client method initBlock id args error after,
      callApiAtNativeCode client (initializeBlock client) method initBlock id args api =
        .ok (.error error, after) →
      after.changes = api.changes ∧
        ∀ {β : Type} (decode : Bytes → Option β),
          callApiAt client (initializeBlock client) method initBlock id args decode api =
            .ok (.error error, after)) ∧
    (∀ client id header error after,
      initializeBlock client id header api = .ok (.error error, after) →
      after.changes = api.changes) ∧
    ∀ {β : Type} (call : ApiProgram (TransactionOutcome β)) value after,
      call.run { api with changes := api.changes.startTransaction } =
        .ok (.rollback value, after) →
      ∃ restored, api.executeInTransaction call.run = .ok (value, restored) ∧
        restored.changes = api.changes := by
  refine ⟨⟨_, _, program.run_eq api, rfl⟩, ?_, ?_, ?_⟩
  · intro client method initBlock id args error after h
    have hcall := api.callApiAtNativeCode_eq client method initBlock id args
    obtain ⟨herror, hafter⟩ := Prod.mk.inj (Except.ok.inj (hcall.symm.trans h))
    refine ⟨?_, ?_⟩
    · subst hafter
      exact changes_eq (Pending.changes_of_call_error herror) rfl
    · intro β decode
      exact bind_of_ok h _
  · intro client id header error after h
    have hcall := api.initializeBlock_eq client id header
    obtain ⟨herror, hafter⟩ := Prod.mk.inj (Except.ok.inj (hcall.symm.trans h))
    subst hafter
    exact changes_eq (Pending.changes_of_initializeBlock_error herror) rfl
  · intro β call value after h
    have hcall := call.run_eq api.opened
    obtain ⟨hres, -⟩ := Prod.mk.inj (Except.ok.inj (hcall.symm.trans h))
    have hrun := api.executeInTransaction_eq hcall
    rw [hres] at hrun
    exact ⟨_, hrun, changes_eq rfl rfl⟩

/-- Executes a block inside a transaction that is rolled back. -/
def Sample.dryRun : ApiProgram (TransactionOutcome Bool) :=
  .operation (.callApiAtNativeCode (Sample.node.client (Sample.world [(5, 1)]))
      "Core_execute_block" false (.number 1) [7, 1])
    fun answer ↦ .ret (.rollback answer.isOk)

theorem transactions_balanced_dryRun : ∃ after restored,
    Sample.dryRun.run { new with changes := OverlayedChanges.default.startTransaction } =
      .ok (.rollback true, after) ∧
    after.changes.changes ≠ .empty ∧
    new.executeInTransaction Sample.dryRun.run = .ok (true, restored) ∧
    restored.changes = .default := by
  have hrun : Sample.dryRun.run { new with changes := OverlayedChanges.default.startTransaction } =
      .ok (.rollback true, ⟨none, ⟨⟨[([1], some [7])], []⟩, [.empty]⟩, some [7]⟩) := by
    decide +kernel
  obtain ⟨-, -, -, hrollback⟩ := transactions_balanced (.ret ()) new
  obtain ⟨restored, hrestored, hchanges⟩ := hrollback Sample.dryRun true _ hrun
  exact ⟨_, restored, hrun, by decide, hrestored, hchanges⟩

end MockRuntimeApiImpl

end SubArchive
