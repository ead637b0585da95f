import SubArchive.Library.Broadcast
import SubArchive.SequentialFinality

/-!
# Running an import operation

`lock_import_and_run` begins an operation, lets a closure record its effects,
commits it and sends the notifications.  The header of every finalized block is
read again between the commit and the notification.
-/

namespace SubArchive

open Broadcast

structure FinalityNotification where
  hash : Hash
  header : Header
deriving DecidableEq, Repr

structure BlockImportNotification where
  hash : Hash
  origin : BlockOrigin
  header : Header
  isNewBest : Bool
  treeRoute : Option TreeRoute
deriving DecidableEq, Repr

def ImportSummary.notification (summary : ImportSummary) : BlockImportNotification :=
  ⟨summary.hash, summary.origin, summary.header, summary.isNewBest, summary.treeRoute⟩

structure ClientNotifies where
  storageNotifications : List (Hash × Changes)
  importChannels : List (Channel BlockImportNotification)
  finalityChannels : List (Channel FinalityNotification)
deriving DecidableEq

/-- What happens at one finality notification: the answer of the backend, and
the receivers that have gone away since the one before, by their position. -/
structure FinalityRead where
  header : Except Error (Option Header)
  gone : ℕ → Bool

structure NotifyReads where
  finality : ℕ → FinalityRead
  importGone : ℕ → Bool

namespace ClientNotifies

def headerKnown : Panic :=
  "Header already known to exist in DB because it is indicated in the tree route; qed"

/-- The loop of `notify_finalized`. -/
def sendFinalized : (ℕ → FinalityRead) → List Hash → List (Channel FinalityNotification) →
    Except (Panic ⊕ Error) Unit × List (Channel FinalityNotification)
  | _, [], channels => (.ok (), channels)
  | reads, hash :: hashes, channels =>
      match (reads 0).header with
      | .error error => (.error (.inr error), channels)
      | .ok none => (.error (.inl headerKnown), channels)
      | .ok (some header) =>
          sendFinalized (fun k ↦ reads (k + 1)) hashes
            (deliverAll [(⟨hash, header⟩, (reads 0).gone)] channels)

def notifyFinalized (reads : ℕ → FinalityRead) (hashes : List Hash) (notifies : ClientNotifies) :
    Except (Panic ⊕ Error) Unit × ClientNotifies :=
  if hashes = [] then
    (.ok (), { notifies with
      finalityChannels := notifies.finalityChannels.map Channel.retainOpen })
  else
    let (result, finalityChannels) := sendFinalized reads hashes notifies.finalityChannels
    (result, { notifies with finalityChannels })

/-- `notify_imported`, which cannot fail. -/
def notifyImported (gone : ℕ → Bool) (summary : Option ImportSummary) (notifies : ClientNotifies) :
    ClientNotifies :=
  match summary with
  | none => { notifies with importChannels := notifies.importChannels.map Channel.retainOpen }
  | some summary => {
      storageNotifications := notifies.storageNotifications ++
        (summary.storageChanges.map fun changes ↦ (summary.hash, changes)).toList
      importChannels := deliverAll [(summary.notification, gone)] notifies.importChannels
      finalityChannels := notifies.finalityChannels }

@[simp] theorem finalityChannels_notifyImported (gone : ℕ → Bool)
    (summary : Option ImportSummary) (notifies : ClientNotifies) :
    (notifies.notifyImported gone summary).finalityChannels = notifies.finalityChannels := by
  cases summary <;> rfl

end ClientNotifies

/-- How the backend begins and commits operations; a commit is atomic. -/
structure Store (σ : Type) where
  beginOperation : σ → Except Error Unit
  commitOperation : σ → List OpCall → Except Error σ

structure ClientState (σ : Type) where
  backend : σ
  notifies : ClientNotifies

/-- `lock_import_and_run`.  The error of the closure may be of any type that
the errors of the backend convert to. -/
def lockImportAndRun {σ ρ ε : Type} (store : Store σ) (fromError : Error → ε)
    (f : ClientImportOperation → Except (Panic ⊕ ε) (ρ × ClientImportOperation))
    (reads : NotifyReads) (s : ClientState σ) : Except (Panic ⊕ ε) ρ × ClientState σ :=
  match store.beginOperation s.backend with
  | .error error => (.error (.inr (fromError error)), s)
  | .ok () =>
      match f .begin with
      | .error failure => (.error failure, s)
      | .ok (r, operation) =>
          match store.commitOperation s.backend operation.op with
          | .error error => (.error (.inr (fromError error)), s)
          | .ok backend =>
              match s.notifies.notifyFinalized reads.finality operation.notifyFinalized with
              | (.error failure, notifies) =>
                  (.error (failure.map id fromError), ⟨backend, notifies⟩)
              | (.ok (), notifies) =>
                  (.ok r, ⟨backend,
                    notifies.notifyImported reads.importGone operation.notifyImported⟩)

/-! ## Its callers -/

/-- `ConsensusError`, as far as an import returns it. -/
inductive ConsensusError where
  | clientImport (error : Error)
deriving DecidableEq, Repr

namespace LockedClient

/-- `apply_finality`, where `blockHash` is `expect_block_hash_from_id`. -/
def applyFinality (client : LockedClient) (blockHash : BlockId → Except Error Hash)
    (operation : ClientImportOperation) (id : BlockId) (justification : Option Justification)
    (notify : Bool) : Except (Panic ⊕ Error) (Unit × ClientImportOperation) := do
  let lastBest := client.info.bestHash
  let toFinalizeHash ← reading (blockHash id)
  let operation ← client.applyFinalityWithBlockHash operation toFinalizeHash justification lastBest
    notify
  return ((), operation)

def finalizeBlock {σ : Type} (client : LockedClient) (store : Store σ)
    (blockHash : BlockId → Except Error Hash) (id : BlockId)
    (justification : Option Justification) (notify : Bool) (reads : NotifyReads)
    (s : ClientState σ) : Except (Panic ⊕ Error) Unit × ClientState σ :=
  lockImportAndRun store (fun error ↦ error)
    (client.applyFinality blockHash · id justification notify) reads s

/-- `import_block`.  The block is prepared before the import lock is taken. -/
def importBlock {σ : Type} (locked : LockedClient) (store : Store σ) (client : Client)
    (importingBlock : Option Hash) (importBlock : BlockImportRequest)
    (newCache : List (Bytes × Bytes)) (reads : NotifyReads) (s : ClientState σ) :
    Except (Panic ⊕ ConsensusError) ImportOutcome × ClientState σ :=
  match importBlock.prepare client importingBlock with
  | .error failure => (.error (failure.map id .clientImport), s)
  | .ok (some result, _) => (.ok (.refused result), s)
  | .ok (none, prepared) =>
      let (result, s) := lockImportAndRun store (fun error ↦ error)
        (fun operation ↦ Prod.swap <$> locked.applyBlock operation prepared newCache) reads s
      (result.mapError (Sum.map id .clientImport), s)

end LockedClient

/-! ## How far the notifications get -/

namespace ClientNotifies

/-- The notifications of the first hashes were sent, and the header of the next
one, if there is one, could not be had. -/
structure Sends (reads : ℕ → FinalityRead) (hashes : List Hash)
    (sends : List (FinalityNotification × (ℕ → Bool))) (result : Except (Panic ⊕ Error) Unit) :
    Prop where
  sent : sends.map (·.1.hash) = hashes.take sends.length
  gone : sends.map Prod.snd = (List.range sends.length).map fun k ↦ (reads k).gone
  read : ∀ k < sends.length, ∃ header, (reads k).header = .ok (some header)
  next : (sends.length = hashes.length ∧ result = .ok ()) ∨
    sends.length < hashes.length ∧
      ((∃ error, (reads sends.length).header = .error error ∧ result = .error (.inr error)) ∨
        (reads sends.length).header = .ok none ∧ result = .error (.inl headerKnown))

theorem sendFinalized_sends (reads : ℕ → FinalityRead) (hashes : List Hash)
    (channels : List (Channel FinalityNotification)) : ∃ sends,
    (sendFinalized reads hashes channels).2 = deliverAll sends channels ∧
      Sends reads hashes sends (sendFinalized reads hashes channels).1 := by
  induction hashes generalizing reads channels with
  | nil => exact ⟨[], rfl, rfl, rfl, by simp, Or.inl ⟨rfl, rfl⟩⟩
  | cons hash hashes ih =>
      rcases hheader : (reads 0).header with error | _ | header
      · refine ⟨[], ?_, by simp, rfl, by simp, Or.inr ⟨by simp, Or.inl ⟨error, hheader, ?_⟩⟩⟩
        · simp [sendFinalized, hheader, deliverAll]
        · simp [sendFinalized, hheader]
      · refine ⟨[], ?_, by simp, rfl, by simp, Or.inr ⟨by simp, Or.inr ⟨hheader, ?_⟩⟩⟩
        · simp [sendFinalized, hheader, deliverAll]
        · simp [sendFinalized, hheader]
      · obtain ⟨sends, hchannels, hsends⟩ := ih (fun k ↦ reads (k + 1))
          (deliverAll [(⟨hash, header⟩, (reads 0).gone)] channels)
        have hrest : sendFinalized reads (hash :: hashes) channels =
            sendFinalized (fun k ↦ reads (k + 1)) hashes
              (deliverAll [(⟨hash, header⟩, (reads 0).gone)] channels) := by
          simp [sendFinalized, hheader]
        rw [hrest]
        refine ⟨(⟨hash, header⟩, (reads 0).gone) :: sends, ?_, ?_, ?_, ?_, ?_⟩
        · rw [hchannels]
          rfl
        · simp [hsends.sent]
        · simp [hsends.gone, List.range_succ_eq_map]
        · intro k hk
          rcases k with _ | k
          · exact ⟨header, hheader⟩
          · exact hsends.read k (by simpa using hk)
        · simpa using hsends.next

variable {reads : ℕ → FinalityRead} {hashes : List Hash} {notifies : ClientNotifies}
  {sends : List (FinalityNotification × (ℕ → Bool))} {result : Except (Panic ⊕ Error) Unit}

/-- The channels get what was sent, also when there is nothing to send. -/
theorem notifyFinalized_sends (reads : ℕ → FinalityRead) (hashes : List Hash)
    (notifies : ClientNotifies) : ∃ sends finalityChannels,
    (notifies.notifyFinalized reads hashes).2 = { notifies with finalityChannels } ∧
      finalityChannels.map Channel.received =
        (deliverAll sends notifies.finalityChannels).map Channel.received ∧
      Sends reads hashes sends (notifies.notifyFinalized reads hashes).1 := by
  unfold notifyFinalized
  split
  · rename_i hempty
    subst hempty
    refine ⟨[], notifies.finalityChannels.map Channel.retainOpen, rfl, ?_, rfl, rfl, by simp,
      Or.inl ⟨rfl, rfl⟩⟩
    rw [List.map_map]
    rfl
  · obtain ⟨sends, hchannels, hsends⟩ :=
      sendFinalized_sends reads hashes notifies.finalityChannels
    exact ⟨sends, _, rfl, by rw [hchannels], hsends⟩

theorem Sends.length_le (h : Sends reads hashes sends result) : sends.length ≤ hashes.length := by
  rcases h.next with ⟨hall, -⟩ | ⟨hlt, -⟩ <;> omega

/-- Everything is sent exactly when all headers are there. -/
theorem Sends.length_eq_iff (h : Sends reads hashes sends result) :
    sends.length = hashes.length ↔
      ∀ k < hashes.length, ∃ header, (reads k).header = .ok (some header) := by
  constructor
  · intro hall k hk
    exact h.read k (by omega)
  · intro hreads
    rcases h.next with ⟨hall, -⟩ | ⟨hlt, hstopped⟩
    · exact hall
    · obtain ⟨header, hheader⟩ := hreads sends.length hlt
      rcases hstopped with ⟨error, herror, -⟩ | ⟨hnone, -⟩
      · simp [hheader] at herror
      · simp [hheader] at hnone

theorem Sends.length_eq_of_ok (h : Sends reads hashes sends (.ok ())) :
    sends.length = hashes.length := by
  rcases h.next with ⟨hall, -⟩ | ⟨-, ⟨error, -, herror⟩ | ⟨-, hpanic⟩⟩
  · exact hall
  · simp at herror
  · simp at hpanic

/-- A channel that is open and stays so gets all that was sent. -/
theorem Sends.received_of_open (h : Sends reads hashes sends result)
    {finalityChannels channels : List (Channel FinalityNotification)}
    (hreceived : finalityChannels.map Channel.received =
      (deliverAll sends channels).map Channel.received)
    {i : ℕ} {channel : Channel FinalityNotification} (hi : channels[i]? = some channel)
    (hopen : channel.Open) (hstays : ∀ k < sends.length, (reads k).gone i = false) :
    ∃ channel', finalityChannels[i]? = some channel' ∧
      channel'.received.map (·.hash) =
        channel.received.map (·.hash) ++ hashes.take sends.length := by
  have hgone : ∀ entry ∈ sends.map fun (a, gone) ↦ (a, gone i), entry.2 = false := by
    intro entry hentry
    obtain ⟨⟨notification, gone⟩, hmem, rfl⟩ := List.mem_map.mp hentry
    have hgone : gone ∈ sends.map Prod.snd := List.mem_map.mpr ⟨_, hmem, rfl⟩
    rw [h.gone, List.mem_map] at hgone
    obtain ⟨k, hk, rfl⟩ := hgone
    exact hstays k (List.mem_range.mp hk)
  have hat := congrArg (fun received ↦ received[i]?) hreceived
  simp only [List.getElem?_map, getElem?_deliverAll, hi, Option.map_some,
    Channel.deliver_of_open hopen hgone, Option.map_eq_some_iff] at hat
  obtain ⟨channel', hchannel', hreceived'⟩ := hat
  refine ⟨channel', hchannel', ?_⟩
  rw [hreceived', List.map_append, ← h.sent, List.map_map, List.map_map]
  rfl

/-- Nothing was sent. -/
structure Silent (before after : ClientNotifies) : Prop where
  storage : after.storageNotifications = before.storageNotifications
  imports : after.importChannels.map Channel.received = before.importChannels.map Channel.received
  finality : after.finalityChannels.map Channel.received =
    before.finalityChannels.map Channel.received

/-- Every channel that was open and whose receiver stayed has got what the
operation queued. -/
structure Delivered (reads : NotifyReads) (operation : ClientImportOperation)
    (before after : ClientNotifies) : Prop where
  finality : ∀ (i : ℕ) (channel : Channel FinalityNotification),
    before.finalityChannels[i]? = some channel → channel.Open →
    (∀ k < operation.notifyFinalized.length, (reads.finality k).gone i = false) →
    ∃ channel', after.finalityChannels[i]? = some channel' ∧
      channel'.received.map (·.hash) =
        channel.received.map (·.hash) ++ operation.notifyFinalized
  imports : ∀ summary, operation.notifyImported = some summary →
    ∀ (i : ℕ) (channel : Channel BlockImportNotification),
    before.importChannels[i]? = some channel → channel.Open → reads.importGone i = false →
    ∃ channel', after.importChannels[i]? = some channel' ∧
      channel'.received = channel.received ++ [summary.notification]
  storage : after.storageNotifications = before.storageNotifications ++
    (operation.notifyImported.bind fun summary ↦
      summary.storageChanges.map fun changes ↦ (summary.hash, changes)).toList

end ClientNotifies

/-! ## Failures before and after the commit -/

section Runs

variable {σ ρ ε : Type} {store : Store σ} {fromError : Error → ε}
  {f : ClientImportOperation → Except (Panic ⊕ ε) (ρ × ClientImportOperation)}
  {reads : NotifyReads} {s : ClientState σ} {r : ρ} {operation : ClientImportOperation}
  {backend : σ} {notified : Except (Panic ⊕ Error) Unit}
  {sends : List (FinalityNotification × (ℕ → Bool))}

/-- The closure succeeds and its operation is committed. -/
structure Commits (store : Store σ)
    (f : ClientImportOperation → Except (Panic ⊕ ε) (ρ × ClientImportOperation))
    (s : ClientState σ) (r : ρ) (operation : ClientImportOperation) (backend : σ) : Prop where
  begun : store.beginOperation s.backend = .ok ()
  ran : f .begin = .ok (r, operation)
  committed : store.commitOperation s.backend operation.op = .ok backend

theorem Commits.unique {r' : ρ} {operation' : ClientImportOperation} {backend' : σ}
    (h : Commits store f s r operation backend) (h' : Commits store f s r' operation' backend') :
    operation' = operation ∧ backend' = backend := by
  have hran := h'.ran
  rw [h.ran, Except.ok.injEq, Prod.mk.injEq] at hran
  obtain ⟨-, rfl⟩ := hran
  have hcommitted := h'.committed
  rw [h.committed, Except.ok.injEq] at hcommitted
  exact ⟨rfl, hcommitted.symm⟩

/-- Without a commit the state stays; after one the outcome depends on the
headers read for the notifications. -/
theorem lockImportAndRun_cases {result : Except (Panic ⊕ ε) ρ} {t : ClientState σ}
    (h : lockImportAndRun store fromError f reads s = (result, t)) :
    ((∀ r operation backend, ¬ Commits store f s r operation backend) ∧
      (∃ failure, result = .error failure) ∧ t = s) ∨
    ∃ r operation backend sends finalityChannels notified,
      Commits store f s r operation backend ∧
      ClientNotifies.Sends reads.finality operation.notifyFinalized sends notified ∧
      finalityChannels.map Channel.received =
        (deliverAll sends s.notifies.finalityChannels).map Channel.received ∧
      ((notified = .ok () ∧ result = .ok r ∧
          t = ⟨backend, ({ s.notifies with finalityChannels } :
            ClientNotifies).notifyImported reads.importGone operation.notifyImported⟩) ∨
        ∃ failure, notified = .error failure ∧ result = .error (failure.map id fromError) ∧
          t = ⟨backend, { s.notifies with finalityChannels }⟩) := by
  unfold lockImportAndRun at h
  rcases hbegin : store.beginOperation s.backend with error | _
  · obtain ⟨rfl, rfl⟩ : _ = result ∧ _ = t := by simpa [hbegin] using h
    refine Or.inl ⟨fun _ _ _ hcommits ↦ ?_, ⟨_, rfl⟩, rfl⟩
    have hbegun := hcommits.begun
    simp [hbegin] at hbegun
  rcases hrun : f .begin with failure | ⟨r, operation⟩
  · obtain ⟨rfl, rfl⟩ : _ = result ∧ _ = t := by simpa [hbegin, hrun] using h
    refine Or.inl ⟨fun _ _ _ hcommits ↦ ?_, ⟨_, rfl⟩, rfl⟩
    have hran := hcommits.ran
    simp [hrun] at hran
  rcases hcommit : store.commitOperation s.backend operation.op with error | backend
  · obtain ⟨rfl, rfl⟩ : _ = result ∧ _ = t := by simpa [hbegin, hrun, hcommit] using h
    refine Or.inl ⟨fun r' operation' backend' hcommits ↦ ?_, ⟨_, rfl⟩, rfl⟩
    have hran := hcommits.ran
    obtain ⟨rfl, rfl⟩ : r = r' ∧ operation = operation' := by simpa [hrun] using hran
    have hcommitted := hcommits.committed
    simp [hcommit] at hcommitted
  right
  obtain ⟨sends, finalityChannels, hnotifies, hreceived, hsends⟩ :=
    ClientNotifies.notifyFinalized_sends reads.finality operation.notifyFinalized s.notifies
  simp only [hbegin, hrun, hcommit] at h
  rcases hnotified : s.notifies.notifyFinalized reads.finality operation.notifyFinalized with
    ⟨failure | _, notifies⟩
  · rw [hnotified] at hnotifies hsends
    obtain rfl : notifies = _ := hnotifies
    obtain ⟨rfl, rfl⟩ : _ = result ∧ _ = t := by simpa [hnotified] using h
    exact ⟨r, operation, backend, sends, finalityChannels, _, ⟨hbegin, hrun, hcommit⟩, hsends,
      hreceived, Or.inr ⟨failure, rfl, rfl, rfl⟩⟩
  · rw [hnotified] at hnotifies hsends
    obtain rfl : notifies = _ := hnotifies
    obtain ⟨rfl, rfl⟩ : _ = result ∧ _ = t := by simpa [hnotified] using h
    exact ⟨r, operation, backend, sends, finalityChannels, _, ⟨hbegin, hrun, hcommit⟩, hsends,
      hreceived, Or.inl ⟨rfl, rfl, rfl⟩⟩

/-- The header of the `k`-th finalized block cannot be read after the commit. -/
structure FailsToNotify (store : Store σ)
    (f : ClientImportOperation → Except (Panic ⊕ ε) (ρ × ClientImportOperation))
    (reads : NotifyReads) (s : ClientState σ) (operation : ClientImportOperation) (backend : σ)
    (k : ℕ) : Prop where
  commits : ∃ r, Commits store f s r operation backend
  bound : k < operation.notifyFinalized.length
  earlier : ∀ j < k, ∃ header, (reads.finality j).header = .ok (some header)
  fails : ∃ error, (reads.finality k).header = .error error

/-- Notifications stop at the block whose header cannot be read. -/
theorem FailsToNotify.length_sends {k : ℕ}
    (h : FailsToNotify store f reads s operation backend k)
    (hsends : ClientNotifies.Sends reads.finality operation.notifyFinalized sends notified) :
    sends.length = k ∧ ∃ error, notified = .error (.inr error) := by
  obtain ⟨error, hfails⟩ := h.fails
  have hbound := h.bound
  rcases Nat.lt_or_ge k sends.length with hlt | hge
  · obtain ⟨header, hheader⟩ := hsends.read k hlt
    simp [hheader] at hfails
  rcases Nat.eq_or_lt_of_le hge with rfl | hlt
  · rcases hsends.next with ⟨hlength, -⟩ | ⟨-, ⟨error, -, herror⟩ | ⟨hnone, -⟩⟩
    · omega
    · exact ⟨rfl, error, herror⟩
    · simp [hnone] at hfails
  · obtain ⟨header, hheader⟩ := h.earlier sends.length hlt
    rcases hsends.next with ⟨hlength, -⟩ | ⟨-, ⟨error, herror, -⟩ | ⟨hnone, -⟩⟩
    · omega
    · simp [hheader] at herror
    · simp [hheader] at hnone

/-- The first notifications reach nobody exactly when there are none, or when
no channel is open at the first of them. -/
theorem ClientNotifies.Sends.silent_iff {hashes : List Hash}
    (h : Sends reads.finality hashes sends notified)
    (channels : List (Channel FinalityNotification)) :
    (deliverAll sends channels).map Channel.received = channels.map Channel.received ↔
      sends.length = 0 ∨ ∀ (i : ℕ) (channel : Channel FinalityNotification),
        channels[i]? = some channel → ¬ (channel.close ((reads.finality 0).gone i)).Open := by
  rcases sends with _ | ⟨⟨notification, gone⟩, rest⟩
  · simp [deliverAll]
  · have hgone := h.gone
    simp only [List.map_cons, List.length_cons, List.range_succ_eq_map, List.cons.injEq] at hgone
    obtain ⟨rfl, -⟩ := hgone
    rw [map_received_deliverAll_cons]
    simp

/-- Notifications that do not fail deliver all that the operation queued. -/
theorem ClientNotifies.Sends.delivered {notifies after : ClientNotifies}
    {finalityChannels : List (Channel FinalityNotification)}
    (h : Sends reads.finality operation.notifyFinalized sends (.ok ()))
    (hreceived : finalityChannels.map Channel.received =
      (deliverAll sends notifies.finalityChannels).map Channel.received)
    (hafter : after = ({ notifies with finalityChannels } : ClientNotifies).notifyImported
      reads.importGone operation.notifyImported) :
    Delivered reads operation notifies after := by
  subst hafter
  have hlength : sends.length = operation.notifyFinalized.length := h.length_eq_of_ok
  have hfinality : ∀ (i : ℕ) (channel : Channel FinalityNotification),
      notifies.finalityChannels[i]? = some channel → channel.Open →
      (∀ k < operation.notifyFinalized.length, (reads.finality k).gone i = false) →
      ∃ channel', finalityChannels[i]? = some channel' ∧
        channel'.received.map (·.hash) =
          channel.received.map (·.hash) ++ operation.notifyFinalized := by
    intro i channel hi hopen hstays
    rw [← hlength] at hstays
    obtain ⟨channel', hi', hreceived'⟩ := h.received_of_open hreceived hi hopen hstays
    refine ⟨channel', hi', ?_⟩
    rw [hreceived', hlength, List.take_length]
  rcases hsummary : operation.notifyImported with _ | summary
  · exact ⟨hfinality, by simp [hsummary], by simp [notifyImported, hsummary]⟩
  · refine ⟨hfinality, ?_, by simp [notifyImported, hsummary]⟩
    intro summary' hsummary' i channel hi hopen hstays
    obtain rfl : summary = summary' := by simpa [hsummary] using hsummary'
    have hgone : ∀ entry ∈ [(summary.notification, reads.importGone i)], entry.2 = false := by
      intro entry hentry
      rw [List.mem_singleton.mp hentry]
      exact hstays
    refine ⟨channel.deliver [(summary.notification, reads.importGone i)], ?_, ?_⟩
    · simp [notifyImported, getElem?_deliverAll, hi]
    · rw [Channel.deliver_of_open hopen hgone]
      rfl

/-- What a caller expects of an error and of a success. -/
def AllOrNothing (store : Store σ)
    (f : ClientImportOperation → Except (Panic ⊕ ε) (ρ × ClientImportOperation))
    (reads : NotifyReads) (s : ClientState σ) : Except (Panic ⊕ ε) ρ × ClientState σ → Prop
  | (.error (.inl _), _) => True
  | (.error (.inr _), t) => t.backend = s.backend ∧ s.notifies.Silent t.notifies
  | (.ok r, t) => ∃ operation, Commits store f s r operation t.backend ∧
      s.notifies.Delivered reads operation t.notifies

/-- An error means that nothing happened, and a success that everything did,
exactly when no header read for the notifications of a commit fails, or the
commit changed nothing and nobody was notified before that read. -/
theorem lockImportAndRun_iff :
    AllOrNothing store f reads s (lockImportAndRun store fromError f reads s) ↔
      ∀ operation backend k, FailsToNotify store f reads s operation backend k →
        backend = s.backend ∧ (k = 0 ∨ ∀ (i : ℕ) (channel : Channel FinalityNotification),
          s.notifies.finalityChannels[i]? = some channel →
            ¬ (channel.close ((reads.finality 0).gone i)).Open) := by
  rcases hrun : lockImportAndRun store fromError f reads s with ⟨result, t⟩
  rcases lockImportAndRun_cases hrun with ⟨hnone, ⟨failure, rfl⟩, rfl⟩ |
    ⟨r, operation, backend, sends, finalityChannels, notified, hcommits, hsends, hreceived,
      ⟨rfl, rfl, rfl⟩ | ⟨failure, rfl, rfl, rfl⟩⟩
  · refine iff_of_true ?_ ?_
    · rcases failure with panic | error
      · exact trivial
      · exact ⟨rfl, rfl, rfl, rfl⟩
    · intro operation backend k hfails
      obtain ⟨r, hcommits⟩ := hfails.commits
      exact absurd hcommits (hnone r operation backend)
  · refine iff_of_true ⟨operation, hcommits, hsends.delivered hreceived rfl⟩ ?_
    intro operation' backend' k hfails
    obtain ⟨r', hcommits'⟩ := hfails.commits
    obtain ⟨rfl, rfl⟩ := hcommits.unique hcommits'
    obtain ⟨-, error, herror⟩ := hfails.length_sends hsends
    simp at herror
  · rcases failure with panic | error
    · refine iff_of_true trivial ?_
      intro operation' backend' k hfails
      obtain ⟨r', hcommits'⟩ := hfails.commits
      obtain ⟨rfl, rfl⟩ := hcommits.unique hcommits'
      obtain ⟨-, error, herror⟩ := hfails.length_sends hsends
      simp at herror
    have hfails : FailsToNotify store f reads s operation backend sends.length := by
      rcases hsends.next with ⟨-, hok⟩ | ⟨hbound, ⟨error', herror, -⟩ | ⟨-, hpanic⟩⟩
      · simp at hok
      · exact ⟨⟨r, hcommits⟩, hbound, hsends.read, error', herror⟩
      · simp at hpanic
    constructor
    · rintro ⟨hbackend, hsilent⟩ operation' backend' k hfails'
      obtain ⟨r', hcommits'⟩ := hfails'.commits
      obtain ⟨rfl, rfl⟩ := hcommits.unique hcommits'
      obtain ⟨rfl, -⟩ := hfails'.length_sends hsends
      exact ⟨hbackend, (hsends.silent_iff _).mp (hreceived ▸ hsilent.finality)⟩
    · intro hcondition
      obtain ⟨hbackend, hnobody⟩ := hcondition operation backend sends.length hfails
      refine ⟨hbackend, rfl, rfl, ?_⟩
      rw [hreceived]
      exact (hsends.silent_iff _).mpr hnobody

end Runs

namespace Sample

/-- A store that keeps what was committed. -/
def store : Store (List OpCall) where
  beginOperation _ := .ok ()
  commitOperation committed op := .ok (committed ++ op)

/-- Somebody listens to finality and somebody to imports. -/
def listening : ClientState (List OpCall) := ⟨[], ⟨[], [Channel.opened], [Channel.opened]⟩⟩

def blockHash : BlockId → Except Error Hash
  | .hash hash => .ok hash
  | .number _ => .error (.unknownBlock "")

def firstHeader : Header := ⟨[0, 0], 1, [5], [], []⟩

/-- Only the first header can be read after the commit. -/
def failingReads : NotifyReads where
  finality k := ⟨if k = 0 then .ok (some firstHeader) else .error (.backend "io error"),
    fun _ ↦ false⟩
  importGone _ := false

end Sample

/-- A finalization fails with the marks committed and one notification of two
sent. -/
theorem lockImportAndRun_fails_committed :
    Sample.locked.finalizeBlock Sample.store Sample.blockHash (.hash [2, 6]) none true
        Sample.failingReads Sample.listening =
      (.error (.inr (.backend "io error")),
        ⟨[.markFinalized [1, 5] none, .markFinalized [2, 6] none],
          ⟨[], [.opened], [⟨true, false, [⟨[1, 5], Sample.firstHeader⟩]⟩]⟩⟩) ∧
    ¬ AllOrNothing Sample.store
      (Sample.locked.applyFinality Sample.blockHash · (.hash [2, 6]) none true)
      Sample.failingReads Sample.listening
      (Sample.locked.finalizeBlock Sample.store Sample.blockHash (.hash [2, 6]) none true
        Sample.failingReads Sample.listening) := by
  have hrun : Sample.locked.finalizeBlock Sample.store Sample.blockHash (.hash [2, 6]) none true
      Sample.failingReads Sample.listening =
        (.error (.inr (.backend "io error")),
          ⟨[.markFinalized [1, 5] none, .markFinalized [2, 6] none],
            ⟨[], [.opened], [⟨true, false, [⟨[1, 5], Sample.firstHeader⟩]⟩]⟩⟩) := rfl
  refine ⟨hrun, ?_⟩
  rw [hrun]
  rintro ⟨hbackend, -⟩
  exact absurd hbackend (by decide)

end SubArchive
