import SubArchive.Chain
import SubArchive.Library.Transition

/-!
# Initialisations of the mock runtime API

A call that wants an initialised block runs `initialize_block` inside its own
transaction unless the marker names the block already.  `ApiSession` records
beside the API object the blocks whose initialisation is in the overlay, with
the same transactions.
-/

namespace SubArchive

open Results

structure ApiSession where
  api : MockRuntimeApiImpl
  /-- the blocks that were initialised with success, last first; no step reads
  it -/
  initialized : List BlockId
  /-- the same at the start of every open transaction -/
  saved : List (List BlockId)
deriving DecidableEq

namespace ApiSession

def new : ApiSession := ⟨.new, [], []⟩

def startTransaction (s : ApiSession) : ApiSession where
  api := { s.api with changes := s.api.changes.startTransaction }
  initialized := s.initialized
  saved := s.initialized :: s.saved

def commitTransaction (s : ApiSession) : Option ApiSession :=
  s.api.changes.commitTransaction.map fun changes ↦
    ⟨{ s.api with changes }, s.initialized, s.saved.tail⟩

def rollbackTransaction (s : ApiSession) : Option ApiSession :=
  s.api.changes.rollbackTransaction.map fun changes ↦
    ⟨{ s.api with changes }, s.saved.headD [], s.saved.tail⟩

def initializeBlock (client : Client) (id : BlockId) (header : Header) (s : ApiSession) :
    Except Panic (Except Error Unit × ApiSession) := do
  let (res, api) ← MockRuntimeApiImpl.initializeBlock client id header s.api
  match res with
  | .ok _ => return (res, { s with api, initialized := id :: s.initialized })
  | .error _ => return (res, { s with api })

/-- A call up to the execution of its own method. -/
def enter (client : Client) (initBlock : Bool) (id : BlockId) (s : ApiSession) :
    Except Panic (Except Error Unit × ApiSession) :=
  let s := s.startTransaction
  if initBlock = true ∧ s.api.initializedBlock ≠ some id then
    match client.prepareEnvironmentBlock id with
    | .error error => .ok (.error error, s)
    | .ok header => do
        let (result, s) ← s.initializeBlock client id header
        return (result.mapError Error.runtimeApiError, s)
  else .ok (.ok (), s)

/-- The method itself, and the end of the transaction. -/
def leave (client : Client) (method : String) (id : BlockId) (args : Bytes)
    (initialized : Except Error Unit) (s : ApiSession) :
    Except Panic (Except Error Bytes × ApiSession) :=
  let (res, s) : Except Error Bytes × ApiSession :=
    match initialized with
    | .error error => (.error error, s)
    | .ok () =>
        let (result, changes, storage) :=
          client.executor.callStateMachine id method args (s.api.changes.changes, s.api.storage)
        (result, { s with api := { s.api with
          changes := { s.api.changes with changes }
          storage } })
  match res with
  | .ok _ =>
      match s.commitTransaction with
      | some s => .ok (res, s)
      | none => .error "commit error!"
  | .error _ =>
      match s.rollbackTransaction with
      | some s => .ok (res, s)
      | none => .error "rollback error!"

def call (client : Client) (method : String) (initBlock : Bool) (id : BlockId) (args : Bytes)
    (s : ApiSession) : Except Panic (Except Error Bytes × ApiSession) := do
  let (initialized, s) ← s.enter client initBlock id
  s.leave client method id args initialized

/-- What can be done with the API object: any method, `initialize_block` by
itself, `into_storage_changes`, and the beginning and the two ends of
`execute_in_transaction`. -/
inductive Event where
  | call (client : Client) (method : String) (initBlock : Bool) (id : BlockId) (args : Bytes)
  | initializeBlock (client : Client) (id : BlockId) (header : Header)
  | intoStorageChanges (backend : StateBackend)
  | startTransaction
  | commitTransaction
  | rollbackTransaction

/-- There is no next state after a panic. -/
def next (s : ApiSession) : Event → Option ApiSession
  | .call client method initBlock id args =>
      (s.call client method initBlock id args).toOption.map Prod.snd
  | .initializeBlock client id header => (s.initializeBlock client id header).toOption.map Prod.snd
  | .intoStorageChanges backend => some ⟨(s.api.intoStorageChanges backend).2, [], []⟩
  | .startTransaction => some s.startTransaction
  | .commitTransaction => s.commitTransaction
  | .rollbackTransaction => s.rollbackTransaction

variable {client : Client} {method : String} {initBlock : Bool} {id : BlockId} {args : Bytes}
  {header : Header} {s t : ApiSession}

/-- The executor's answer when `initialize_block` gets as far as calling the
runtime. -/
def initialization (client : Client) (id : BlockId) (header : Header) (api : MockRuntimeApiImpl) :
    Option (Except Error Bytes × (Changes × StorageTransactionCache)) :=
  match client.runtimeVersionAt id with
  | .error _ => none
  | .ok version =>
      let method :=
        if version.apis.any fun (s, v) ↦ s = coreApiId && v < 2 then "Core_initialise_block"
        else "Core_initialize_block"
      some (client.executor.callStateMachine id method (client.codec.encodeHeader header)
        (api.changes.changes, api.storage))

theorem initializeBlock_of_none (h : initialization client id header s.api = none) :
    ∃ error, s.initializeBlock client id header = .ok (.error error, s) := by
  unfold initialization at h
  rcases hversion : client.runtimeVersionAt id with error | version
  · refine ⟨error, ?_⟩
    simp [initializeBlock, MockRuntimeApiImpl.initializeBlock, hversion]
  · simp [hversion] at h

/-- The marker is set and the changes are settled; the block counts as
initialised when the runtime accepted it. -/
def initializedAt (id : BlockId) (out : Except Error Bytes × (Changes × StorageTransactionCache))
    (s : ApiSession) : ApiSession where
  api := { s.api.settle out with initializedBlock := some id }
  initialized :=
    match out.1 with
    | .ok _ => id :: s.initialized
    | .error _ => s.initialized
  saved := s.saved

theorem initializeBlock_of_some
    {out : Except Error Bytes × (Changes × StorageTransactionCache)}
    (h : initialization client id header s.api = some out) :
    s.initializeBlock client id header = .ok (out.1.map fun _ ↦ (), s.initializedAt id out) := by
  unfold initialization at h
  rcases hversion : client.runtimeVersionAt id with error | version
  · simp [hversion] at h
  · simp only [hversion, Option.some.injEq] at h
    subst h
    simp only [initializeBlock, MockRuntimeApiImpl.initializeBlock, hversion,
      MockRuntimeApiImpl.callApiAt, MockRuntimeApiImpl.callApiAtNativeCode_skip, ok_bind, pure_eq]
    generalize client.executor.callStateMachine id _ (client.codec.encodeHeader header)
      (s.api.changes.changes, s.api.storage) = out
    rcases out with ⟨error | bytes, changes, storage⟩ <;> rfl

theorem initializeBlock_api (client : Client) (id : BlockId) (header : Header) (s : ApiSession) :
    MockRuntimeApiImpl.initializeBlock client id header s.api =
      (s.initializeBlock client id header).map fun out ↦ (out.1, out.2.api) := by
  unfold initializeBlock
  rcases MockRuntimeApiImpl.initializeBlock client id header s.api with panic | ⟨error | _, api⟩ <;>
    rfl

theorem leave_api (s : ApiSession) (initialized : Except Error Unit) :
    (s.leave client method id args initialized).map (fun out ↦ (out.1, out.2.api)) = (do
      let (res, api) : Except Error Bytes × MockRuntimeApiImpl :=
        match initialized with
        | .error error => (.error error, s.api)
        | .ok () =>
            let (result, changes, storage) := client.executor.callStateMachine id method args
              (s.api.changes.changes, s.api.storage)
            (result, { s.api with changes := { s.api.changes with changes }, storage })
      match res with
      | .ok _ =>
          match api.changes.commitTransaction with
          | some changes => return (res, { api with changes })
          | none => throw "commit error!"
      | .error _ =>
          match api.changes.rollbackTransaction with
          | some changes => return (res, { api with changes })
          | none => throw "rollback error!") := by
  rcases initialized with error | _
  · rcases hrollback : s.api.changes.rollbackTransaction with _ | changes <;>
      simp [leave, rollbackTransaction, hrollback, Except.map]
  · rcases hcall : client.executor.callStateMachine id method args
      (s.api.changes.changes, s.api.storage) with ⟨error | bytes, changes, storage⟩
    · rcases hrollback : ({ s.api.changes with changes } :
        OverlayedChanges).rollbackTransaction with _ | overlay <;>
        simp [leave, rollbackTransaction, hcall, hrollback, Except.map]
    · rcases hcommit : ({ s.api.changes with changes } :
        OverlayedChanges).commitTransaction with _ | overlay <;>
        simp [leave, commitTransaction, hcall, hcommit, Except.map]

/-- The calls of a session are those of the API object. -/
theorem call_api (s : ApiSession) :
    (s.call client method initBlock id args).map (fun out ↦ (out.1, out.2.api)) =
      MockRuntimeApiImpl.callApiAtNativeCode client (MockRuntimeApiImpl.initializeBlock client)
        method initBlock id args s.api := by
  by_cases hinit : initBlock = true ∧ s.api.initializedBlock ≠ some id
  · obtain ⟨rfl, hmarker⟩ := hinit
    rcases hheader : client.prepareEnvironmentBlock id with error | header
    · simp only [call, enter, startTransaction, hmarker, hheader,
        MockRuntimeApiImpl.callApiAtNativeCode, Client.callApiAt, LocalCallExecutor.contextualCall,
        ne_eq, not_false_eq_true, and_self, if_true, ok_bind, pure_eq]
      exact leave_api _ _
    · have hnested := initializeBlock_api client id header s.startTransaction
      rcases hres : s.startTransaction.initializeBlock client id header with
        panic | ⟨error | _, t⟩ <;>
        rw [hres] at hnested <;>
        simp only [startTransaction, Except.map] at hnested hres
      · simp [call, enter, startTransaction, hmarker, hheader, hres, hnested,
          MockRuntimeApiImpl.callApiAtNativeCode, Client.callApiAt,
          LocalCallExecutor.contextualCall, Except.map]
      · simp only [call, enter, startTransaction, hmarker, hheader, hres, hnested,
          MockRuntimeApiImpl.callApiAtNativeCode, Client.callApiAt,
          LocalCallExecutor.contextualCall, Except.mapError, ne_eq, not_false_eq_true, and_self,
          if_true, ok_bind, pure_eq]
        exact leave_api _ _
      · simp only [call, enter, startTransaction, hmarker, hheader, hres, hnested,
          MockRuntimeApiImpl.callApiAtNativeCode, Client.callApiAt,
          LocalCallExecutor.contextualCall, Except.mapError, ne_eq, not_false_eq_true, and_self,
          if_true, ok_bind, pure_eq]
        exact leave_api _ _
  · have hskips : ¬ ((if (!initBlock) = true then InitializeBlock.skip else .run) = .run ∧
        s.api.initializedBlock ≠ some id) := by
      cases initBlock with
      | false => simp
      | true => simpa using hinit
    simp only [call, enter, startTransaction, hinit, hskips,
      MockRuntimeApiImpl.callApiAtNativeCode, Client.callApiAt, LocalCallExecutor.contextualCall,
      if_false, ok_bind, pure_eq]
    exact leave_api _ _

/-! ## What one call can do -/

/-- The call runs an initialisation that gets as far as the runtime, and `out`
is the executor's answer to it. -/
structure Initializes (s : ApiSession) (client : Client) (initBlock : Bool) (id : BlockId)
    (out : Except Error Bytes × (Changes × StorageTransactionCache)) : Prop where
  wanted : initBlock = true
  unmarked : s.api.initializedBlock ≠ some id
  answer : ∃ header, client.prepareEnvironmentBlock id = .ok header ∧
    initialization client id header s.api = some out

theorem Initializes.unique {out out' : Except Error Bytes × (Changes × StorageTransactionCache)}
    (h : s.Initializes client initBlock id out) (h' : s.Initializes client initBlock id out') :
    out = out' := by
  obtain ⟨header, hheader, hout⟩ := h.answer
  obtain ⟨header', hheader', hout'⟩ := h'.answer
  obtain rfl : header = header' := by simpa [hheader] using hheader'
  simpa [hout] using hout'

theorem enter_cases {initialized : Except Error Unit}
    (h : s.enter client initBlock id = .ok (initialized, t)) :
    (t = s.startTransaction ∧ (∀ out, ¬ s.Initializes client initBlock id out) ∧
      (initBlock = true → initialized = .ok () → s.api.initializedBlock = some id)) ∨
    ∃ out, s.Initializes client initBlock id out ∧ t = s.startTransaction.initializedAt id out ∧
      initialized.isOk = out.1.isOk := by
  unfold enter at h
  by_cases hinit : initBlock = true ∧ s.api.initializedBlock ≠ some id
  · have hinit' : initBlock = true ∧ s.startTransaction.api.initializedBlock ≠ some id := hinit
    rw [if_pos hinit'] at h
    rcases hheader : client.prepareEnvironmentBlock id with error | header
    · left
      simp only [hheader, Except.ok.injEq, Prod.mk.injEq] at h
      obtain ⟨rfl, rfl⟩ := h
      refine ⟨rfl, ?_, by simp⟩
      intro out hout
      obtain ⟨header, hheader', -⟩ := hout.answer
      simp [hheader] at hheader'
    · have hsame : initialization client id header s.startTransaction.api =
          initialization client id header s.api := rfl
      rcases hanswer : initialization client id header s.api with _ | out
      · left
        obtain ⟨error, hres⟩ := initializeBlock_of_none (hsame.trans hanswer)
        simp only [hheader, hres, Except.mapError, Except.ok.injEq, Prod.mk.injEq, ok_bind,
          pure_eq] at h
        obtain ⟨rfl, rfl⟩ := h
        refine ⟨rfl, ?_, by simp⟩
        intro out hout
        obtain ⟨header', hheader', hanswer'⟩ := hout.answer
        obtain rfl : header = header' := by simpa [hheader] using hheader'
        simp [hanswer] at hanswer'
      · right
        have hres := initializeBlock_of_some (hsame.trans hanswer)
        simp only [hheader, hres, Except.ok.injEq, Prod.mk.injEq, ok_bind, pure_eq] at h
        obtain ⟨rfl, rfl⟩ := h
        refine ⟨out, ⟨hinit.1, hinit.2, header, hheader, hanswer⟩, rfl, ?_⟩
        cases out.1 <;> rfl
  · have hinit' : ¬ (initBlock = true ∧ s.startTransaction.api.initializedBlock ≠ some id) := hinit
    rw [if_neg hinit', Except.ok.injEq, Prod.mk.injEq] at h
    obtain ⟨rfl, rfl⟩ := h
    refine Or.inl ⟨rfl, ?_, ?_⟩
    · intro out hout
      exact hinit ⟨hout.wanted, hout.unmarked⟩
    · intro hwanted _
      by_contra hmarker
      exact hinit ⟨hwanted, hmarker⟩

theorem leave_cases {initialized : Except Error Unit} {res : Except Error Bytes} {c : Changes}
    {cs : List Changes} {l : List BlockId} {ls : List (List BlockId)}
    (hopen : s.api.changes.transactions = c :: cs) (hsaved : s.saved = l :: ls)
    (h : s.leave client method id args initialized = .ok (res, t)) :
    t.saved = ls ∧ t.api.changes.transactions = cs ∧
      t.api.initializedBlock = s.api.initializedBlock ∧
      t.initialized =
        if initialized.isOk ∧ (client.executor.callStateMachine id method args
          (s.api.changes.changes, s.api.storage)).1.isOk then s.initialized else l := by
  rcases initialized with error | _
  · obtain ⟨-, rfl⟩ : Except.error error = res ∧ _ = t := by
      simpa [leave, rollbackTransaction, OverlayedChanges.rollbackTransaction, hopen, hsaved]
        using h
    simp [Except.isOk, Except.toBool]
  · rcases hcall : client.executor.callStateMachine id method args
      (s.api.changes.changes, s.api.storage) with ⟨error | bytes, changes, storage⟩
    · obtain ⟨-, rfl⟩ : Except.error error = res ∧ _ = t := by
        simpa [leave, rollbackTransaction, OverlayedChanges.rollbackTransaction, hopen, hsaved,
          hcall] using h
      simp [Except.isOk, Except.toBool]
    · obtain ⟨-, rfl⟩ : Except.ok bytes = res ∧ _ = t := by
        simpa [leave, commitTransaction, OverlayedChanges.commitTransaction, hopen, hsaved, hcall]
          using h
      simp [Except.isOk, Except.toBool]

@[simp] theorem transactions_initializedAt
    (out : Except Error Bytes × (Changes × StorageTransactionCache)) :
    (s.initializedAt id out).api.changes.transactions = s.api.changes.transactions := by
  rcases out with ⟨error | bytes, changes, storage⟩ <;> rfl

/-- A call leaves marker and record as they are, or it runs an initialisation:
then the marker is set, and the block is recorded when the initialisation and
the method both succeed. -/
theorem call_cases {res : Except Error Bytes}
    (h : s.call client method initBlock id args = .ok (res, t)) :
    t.saved = s.saved ∧ t.api.changes.transactions = s.api.changes.transactions ∧
      (((∀ out, ¬ s.Initializes client initBlock id out) ∧
          t.api.initializedBlock = s.api.initializedBlock ∧ t.initialized = s.initialized) ∨
        ∃ out, s.Initializes client initBlock id out ∧ t.api.initializedBlock = some id ∧
          t.initialized =
            if out.1.isOk ∧ (client.executor.callStateMachine id method args out.2).1.isOk then
              id :: s.initialized
            else s.initialized) := by
  unfold call at h
  rcases henter : s.enter client initBlock id with panic | ⟨initialized, u⟩
  · simp [henter] at h
  · have hleave : u.leave client method id args initialized = .ok (res, t) := by
      simpa [henter] using h
    rcases enter_cases henter with ⟨rfl, hnone, -⟩ | ⟨out, hout, rfl, hok⟩
    · obtain ⟨hsaved, hopen, hmarker, hinitialized⟩ := leave_cases rfl rfl hleave
      refine ⟨hsaved, hopen, Or.inl ⟨hnone, hmarker, ?_⟩⟩
      rw [hinitialized]
      split <;> rfl
    · obtain ⟨hsaved, hopen, hmarker, hinitialized⟩ :=
        leave_cases (transactions_initializedAt out) rfl hleave
      refine ⟨hsaved, hopen, Or.inr ⟨out, hout, hmarker, ?_⟩⟩
      rw [hinitialized, hok]
      rcases out with ⟨error | bytes, changes, storage⟩
      · rfl
      · rfl

/-! ## The marker -/

/-- The record has the transactions of the overlay. -/
def Aligned (s : ApiSession) : Prop := s.saved.length = s.api.changes.transactions.length

/-- The marked block's initialisation is in the overlay. -/
def Marked (s : ApiSession) : Prop :=
  ∀ id, s.api.initializedBlock = some id → id ∈ s.initialized

/-- Unless an initialisation of the block is in the overlay already, one that
is run succeeds, and so does the method after it; and a transaction is rolled
back only when the marked block's initialisation was there at its start. -/
def Keeps (s : ApiSession) : Event → Prop
  | .call client method initBlock id args => ∀ out, s.Initializes client initBlock id out →
      id ∈ s.initialized ∨
        out.1.isOk ∧ (client.executor.callStateMachine id method args out.2).1.isOk
  | .initializeBlock client id header => ∀ out, initialization client id header s.api = some out →
      id ∈ s.initialized ∨ out.1.isOk
  | .rollbackTransaction => ∀ id, s.api.initializedBlock = some id → id ∈ s.saved.headD []
  | _ => True

theorem aligned_next {e : Event} (hs : s.Aligned) (h : s.next e = some t) : t.Aligned := by
  unfold Aligned at hs ⊢
  cases e with
  | call client method initBlock id args =>
      rcases hcall : s.call client method initBlock id args with panic | ⟨res, u⟩
      · simp [next, hcall, Except.toOption] at h
      · obtain rfl : u = t := by simpa [next, hcall, Except.toOption] using h
        obtain ⟨hsaved, hopen, -⟩ := call_cases hcall
        rw [hsaved, hopen, hs]
  | initializeBlock client id header =>
      rcases hanswer : initialization client id header s.api with _ | out
      · obtain ⟨error, hres⟩ := initializeBlock_of_none hanswer
        obtain rfl : s = t := by simpa [next, hres, Except.toOption] using h
        exact hs
      · obtain rfl : s.initializedAt id out = t := by
          simpa [next, initializeBlock_of_some hanswer, Except.toOption] using h
        rw [transactions_initializedAt, ← hs]
        rfl
  | intoStorageChanges backend =>
      obtain rfl : _ = t := by simpa [next] using h
      rfl
  | startTransaction =>
      obtain rfl : _ = t := by simpa [next] using h
      simp [startTransaction, OverlayedChanges.startTransaction, hs]
  | commitTransaction =>
      rcases hopen : s.api.changes.transactions with _ | ⟨c, cs⟩
      · simp [next, commitTransaction, OverlayedChanges.commitTransaction, hopen] at h
      · obtain rfl : _ = t := by
          simpa [next, commitTransaction, OverlayedChanges.commitTransaction, hopen] using h
        simp [hs, hopen]
  | rollbackTransaction =>
      rcases hopen : s.api.changes.transactions with _ | ⟨c, cs⟩
      · simp [next, rollbackTransaction, OverlayedChanges.rollbackTransaction, hopen] at h
      · obtain rfl : _ = t := by
          simpa [next, rollbackTransaction, OverlayedChanges.rollbackTransaction, hopen] using h
        simp [hs, hopen]

theorem marked_next_iff {e : Event} (hs : s.Marked) (h : s.next e = some t) :
    t.Marked ↔ s.Keeps e := by
  have hsame : t.api.initializedBlock = s.api.initializedBlock →
      t.initialized = s.initialized → t.Marked := by
    intro hmarker hinitialized id hid
    rw [hinitialized]
    exact hs id (hmarker ▸ hid)
  cases e with
  | call client method initBlock id args =>
      rcases hcall : s.call client method initBlock id args with panic | ⟨res, u⟩
      · simp [next, hcall, Except.toOption] at h
      · obtain rfl : u = t := by simpa [next, hcall, Except.toOption] using h
        obtain ⟨-, -, ⟨hnone, hmarker, hinitialized⟩ | ⟨out, hout, hmarker, hinitialized⟩⟩ :=
          call_cases hcall
        · exact iff_of_true (hsame hmarker hinitialized) fun out hout ↦ absurd hout (hnone out)
        · have hmarked : u.Marked ↔ id ∈ u.initialized := by
            simp [Marked, hmarker]
          have hkeeps : s.Keeps (.call client method initBlock id args) ↔ id ∈ s.initialized ∨
              out.1.isOk ∧ (client.executor.callStateMachine id method args out.2).1.isOk := by
            constructor
            · exact fun hkeeps ↦ hkeeps out hout
            · intro hok out' hout'
              rwa [hout'.unique hout]
          rw [hmarked, hkeeps, hinitialized]
          split
          · rename_i hok
            simp [hok]
          · rename_i hfailed
            simp [hfailed]
  | initializeBlock client id header =>
      rcases hanswer : initialization client id header s.api with _ | out
      · obtain ⟨error, hres⟩ := initializeBlock_of_none hanswer
        obtain rfl : s = t := by simpa [next, hres, Except.toOption] using h
        exact iff_of_true hs (by simp [Keeps, hanswer])
      · obtain rfl : s.initializedAt id out = t := by
          simpa [next, initializeBlock_of_some hanswer, Except.toOption] using h
        rcases out with ⟨error | bytes, changes, storage⟩ <;>
          simp [Marked, Keeps, hanswer, initializedAt, Except.isOk, Except.toBool]
  | intoStorageChanges backend =>
      obtain rfl : _ = t := by simpa [next] using h
      exact iff_of_true (by simp [Marked, MockRuntimeApiImpl.intoStorageChanges,
        MockRuntimeApiImpl.new]) trivial
  | startTransaction =>
      obtain rfl : s.startTransaction = t := by simpa [next] using h
      exact iff_of_true (hsame rfl rfl) trivial
  | commitTransaction =>
      obtain ⟨changes, -, rfl⟩ := Option.map_eq_some_iff.mp h
      exact iff_of_true (hsame rfl rfl) trivial
  | rollbackTransaction =>
      obtain ⟨changes, -, rfl⟩ := Option.map_eq_some_iff.mp h
      exact Iff.rfl

theorem marked_new : new.Marked := by
  simp [Marked, new, MockRuntimeApiImpl.new]

/-- As long as all steps keep the marker, it names a block whose initialisation
is in the overlay, and so does every call that gets to its method; a step that
does not keep it leaves a marker without an initialisation. -/
theorem initialization_not_skipped (h : Transition.Reaches next Keeps new s) :
    s.Aligned ∧ s.Marked ∧
      (∀ client id t, s.enter client true id = .ok (.ok (), t) → id ∈ t.initialized) ∧
      ∀ e t, s.next e = some t → (t.Marked ↔ s.Keeps e) := by
  have haligned : s.Aligned := h.invariant rfl fun a e b ha _ hnext ↦ aligned_next ha hnext
  have hmarked : s.Marked :=
    h.invariant marked_new fun a e b ha hkeeps hnext ↦ (marked_next_iff ha hnext).mpr hkeeps
  refine ⟨haligned, hmarked, ?_, fun e t hnext ↦ marked_next_iff hmarked hnext⟩
  intro client id t henter
  rcases enter_cases henter with ⟨rfl, -, hskipped⟩ | ⟨out, hout, rfl, hok⟩
  · exact hmarked id (hskipped rfl rfl)
  · rcases out with ⟨error | bytes, changes, storage⟩
    · simp [Except.isOk, Except.toBool] at hok
    · exact List.mem_cons_self

theorem initialization_not_skipped_metadata : ∃ s,
    new.next (.call (Sample.node.client (Sample.world [(5, 1)])) "Metadata_metadata" true
      (.number 1) []) = some s ∧
    s.api.initializedBlock = some (.number 1) ∧ .number 1 ∈ s.initialized := by
  have hnext : new.next (.call (Sample.node.client (Sample.world [(5, 1)])) "Metadata_metadata"
      true (.number 1) []) = some ⟨⟨some (.number 1), .default, none⟩, [.number 1], []⟩ := by
    decide +kernel
  have hmarked : Marked ⟨⟨some (.number 1), .default, none⟩, [.number 1], []⟩ := by
    simp [Marked]
  have hkeeps := (marked_next_iff marked_new hnext).mp hmarked
  have hrun := initialization_not_skipped (.single ⟨_, hkeeps, hnext⟩)
  exact ⟨_, hnext, rfl, hrun.2.1 _ rfl⟩

/-- A node whose runtime refuses to initialise blocks. -/
def Sample.refusingNode : Node :=
  { Sample.node with
    engine := { Sample.engine with
      call := fun code state method callData pending ↦
        if method = "Core_initialize_block" then (.error (.execution "unreachable"), pending)
        else Sample.engine.call code state method callData pending } }

/-- The first call fails in its initialisation; the second one, for the same
block, runs its method without any. -/
theorem initialization_skipped : ∃ s t u,
    new.next (.call (Sample.refusingNode.client (Sample.world [(5, 1)])) "Metadata_metadata" true
      (.number 1) []) = some s ∧
    s.api.initializedBlock = some (.number 1) ∧ s.initialized = [] ∧
    s.enter (Sample.refusingNode.client (Sample.world [(5, 1)])) true (.number 1) =
      .ok (.ok (), t) ∧
    t.initialized = [] ∧
    s.call (Sample.refusingNode.client (Sample.world [(5, 1)])) "Metadata_metadata" true
      (.number 1) [] = .ok (.ok [1], u) := by
  refine ⟨⟨⟨some (.number 1), .default, none⟩, [], []⟩,
    ⟨⟨some (.number 1), ⟨.empty, [.empty]⟩, none⟩, [], [[]]⟩,
    ⟨⟨some (.number 1), .default, none⟩, [], []⟩, ?_, rfl, rfl, rfl, rfl, ?_⟩
  · decide +kernel
  · decide +kernel

end ApiSession

end SubArchive
