import SubArchive.Library.Transition
import SubArchive.LockImportRun

/-!
# Streams of finality notifications

Blocks are finalized and imported with the import lock held to the last
notification, so the calls come one after the other.  Subscribers join between
them, for a stream is put on the list under the lock of the list; receivers may
go away before any send.
-/

namespace SubArchive

open Ancestry Broadcast Results

/-- A store that rejects an operation unless its final blocks lead on from the
last finalized block, and otherwise moves that to the last of them. -/
structure Store.FinalizesSequentially {σ : Type} (store : Store σ) (codec : Codec)
    (parent : Hash → Option Hash) (finalized : σ → Hash) : Prop where
  leads : ∀ {s op s'}, store.commitOperation s op = .ok s' →
    Leads parent (finalized s) (finals codec op)
  applies : ∀ {s op s'}, store.commitOperation s op = .ok s' →
    finalized s' = tip (finalized s) (finals codec op)

/-- The client hashes like the chain and reads the last finalized block of the
backend. -/
structure LockedClient.Sees {σ : Type} (client : LockedClient) (codec : Codec)
    (finalized : σ → Hash) (backend : σ) : Prop where
  codec : client.codec = codec
  lastFinalized : ∀ hash, client.lastFinalized = .ok hash → hash = finalized backend

/-- What happens to the streams, with the reads of each call. -/
inductive FinalityEvent where
  | subscribe
  | leave (gone : ℕ → Bool)
  | finalizeBlock (client : LockedClient) (blockHash : BlockId → Except Error Hash) (id : BlockId)
      (justification : Option Justification) (notify : Bool) (reads : NotifyReads)
  | importBlock (locked : LockedClient) (client : Client) (importingBlock : Option Hash)
      (params : BlockImportRequest) (newCache : List (Bytes × Bytes)) (reads : NotifyReads)

namespace FinalityEvent

variable {σ : Type}

/-- `finality_notification_stream` adds a channel. -/
def next (store : Store σ) (s : ClientState σ) : FinalityEvent → Option (ClientState σ)
  | .subscribe => some { s with notifies :=
      { s.notifies with finalityChannels := s.notifies.finalityChannels ++ [.opened] } }
  | .leave gone => some { s with notifies :=
      { s.notifies with finalityChannels := closeAll gone s.notifies.finalityChannels } }
  | .finalizeBlock client blockHash id justification notify reads =>
      some (client.finalizeBlock store blockHash id justification notify reads s).2
  | .importBlock locked client importingBlock params newCache reads =>
      some (locked.importBlock store client importingBlock params newCache reads s).2

def Sees (codec : Codec) (finalized : σ → Hash) (s : ClientState σ) : FinalityEvent → Prop
  | .subscribe | .leave _ => True
  | .finalizeBlock client .. => client.Sees codec finalized s.backend
  | .importBlock locked .. => locked.Sees codec finalized s.backend

end FinalityEvent

abbrev FinalityNotification.hashes (channel : Channel FinalityNotification) : List Hash :=
  channel.received.map FinalityNotification.hash

open FinalityNotification (hashes)

/-! ## What is queued is part of what becomes final -/

namespace LockedClient

variable {client : LockedClient} {operation : ClientImportOperation}

theorem applyFinality_finalizes_block {blockHash : BlockId → Except Error Hash} {id : BlockId}
    {justification : Option Justification} {notify : Bool} {u : Unit}
    (h : client.applyFinality blockHash .begin id justification notify = .ok (u, operation)) :
    ∃ block, blockHash id = .ok block ∧
      client.Finalizes block notify operation.op operation.notifyFinalized := by
  unfold applyFinality at h
  simp only [bind_eq_ok, reading_eq_ok, pure_eq_ok, Prod.mk.injEq] at h
  obtain ⟨block, hblock, _, hfinality, -, rfl⟩ := h
  obtain ⟨calls, more, hfinalizes, rfl⟩ := applyFinality_finalizes hfinality
  exact ⟨block, hblock, hfinalizes⟩

theorem applyBlock_queued {importBlock : BlockImportRequest} {newCache : List (Bytes × Bytes)}
    {outcome : ImportOutcome}
    (h : client.applyBlock .begin importBlock newCache = .ok (operation, outcome)) :
    operation.notifyFinalized.Sublist (finals client.codec operation.op) := by
  rcases applyBlock_cases h with ⟨-, rfl⟩ | ⟨forkChoice, middle, -, himports⟩
  · exact List.nil_sublist _
  · obtain ⟨marked, queued, hfinals, hnotify, hqueued, -⟩ := himports.finals
    rw [hfinals]
    exact hnotify.trans (hqueued.append (List.Sublist.refl _))

end LockedClient

/-! ## Streams follow the finalized chain -/

section Streams

variable {σ : Type} {store : Store σ} {codec : Codec} {parent : Hash → Option Hash}
  {finalized : σ → Hash}

/-- Every stream descends to the last finalized block. -/
def ClientState.Follows (parent : Hash → Option Hash) (finalized : σ → Hash) (s : ClientState σ) :
    Prop :=
  ∀ channel ∈ s.notifies.finalityChannels,
    DescendsTo parent (hashes channel) (finalized s.backend)

theorem lockImportAndRun_follows {ρ ε : Type} {fromError : Error → ε}
    {f : ClientImportOperation → Except (Panic ⊕ ε) (ρ × ClientImportOperation)}
    {reads : NotifyReads} {s : ClientState σ}
    (hstore : store.FinalizesSequentially codec parent finalized)
    (hqueued : ∀ r operation, f .begin = .ok (r, operation) →
      operation.notifyFinalized.Sublist (finals codec operation.op))
    (h : s.Follows parent finalized) :
    (lockImportAndRun store fromError f reads s).2.Follows parent finalized := by
  rcases hrun : lockImportAndRun store fromError f reads s with ⟨result, t⟩
  rcases lockImportAndRun_cases hrun with ⟨-, -, rfl⟩ |
    ⟨r, operation, backend, sends, finalityChannels, notified, hcommits, hsends, hreceived,
      houtcome⟩
  · exact h
  have hchannels : t.notifies.finalityChannels = finalityChannels ∧ t.backend = backend := by
    rcases houtcome with ⟨-, -, rfl⟩ | ⟨failure, -, -, rfl⟩ <;> simp
  obtain ⟨rfl, rfl⟩ := hchannels
  intro channel hchannel
  have hmem : channel.received ∈
      (deliverAll sends s.notifies.finalityChannels).map Channel.received := by
    rw [← hreceived]
    exact List.mem_map_of_mem hchannel
  obtain ⟨before, hbefore, m, hm⟩ := exists_received_of_mem_deliverAll hmem
  have hhashes : hashes channel =
      hashes before ++ (operation.notifyFinalized.take sends.length).take m := by
    rw [hashes, hm, List.map_append, ← hsends.sent, List.map_take, List.map_map]
    rfl
  have hmore : ((operation.notifyFinalized.take sends.length).take m).Sublist
      (finals codec operation.op) :=
    ((List.take_sublist _ _).trans (List.take_sublist _ _)).trans (hqueued r operation hcommits.ran)
  rw [hhashes, hstore.applies hcommits.committed]
  exact (h before hbefore).append (hstore.leads hcommits.committed) hmore

/-- Whatever happens, the streams go on following the finalized chain. -/
theorem FinalityEvent.next_follows {s t : ClientState σ} {event : FinalityEvent}
    (hstore : store.FinalizesSequentially codec parent finalized)
    (hsees : event.Sees codec finalized s) (h : s.Follows parent finalized)
    (hnext : next store s event = some t) : t.Follows parent finalized := by
  cases event with
  | subscribe =>
      obtain rfl := Option.some.inj hnext
      intro channel hchannel
      rcases List.mem_append.mp hchannel with hchannel | hchannel
      · exact h channel hchannel
      · rw [List.mem_singleton.mp hchannel]
        exact descendsTo_nil
  | leave gone =>
      obtain rfl := Option.some.inj hnext
      intro channel hchannel
      obtain ⟨i, hi, rfl⟩ := List.mem_mapIdx.mp hchannel
      exact h s.notifies.finalityChannels[i] (List.getElem_mem hi)
  | finalizeBlock client blockHash id justification notify reads =>
      obtain rfl := Option.some.inj hnext
      refine lockImportAndRun_follows hstore ?_ h
      intro _ operation hran
      obtain ⟨block, -, hfinalizes⟩ := LockedClient.applyFinality_finalizes_block hran
      rw [← hsees.codec]
      exact hfinalizes.queued
  | importBlock locked client importingBlock params newCache reads =>
      obtain rfl := Option.some.inj hnext
      unfold LockedClient.importBlock
      split
      · exact h
      · exact h
      · refine lockImportAndRun_follows hstore ?_ h
        intro outcome operation hran
        obtain ⟨⟨operation', outcome'⟩, happly, hswap⟩ := map_eq_ok.mp hran
        obtain ⟨rfl, rfl⟩ := Prod.mk.inj hswap
        rw [← hsees.codec]
        exact LockedClient.applyBlock_queued happly

/-! ## Finalizing notifies the path -/

/-- The headers of all blocks of a path can be read after the commit. -/
def NotifyReads.ReadsHeaders (reads : NotifyReads) (path : List Hash) : Prop :=
  ∀ k < path.length, ∃ header, (reads.finality k).header = .ok (some header)

/-- The channel is open and its receiver stays while a path is notified. -/
structure ClientNotifies.StaysOpen (notifies : ClientNotifies) (reads : NotifyReads)
    (path : List Hash) (i : ℕ) (channel : Channel FinalityNotification) : Prop where
  channel_eq : notifies.finalityChannels[i]? = some channel
  isOpen : channel.Open
  stays : ∀ k < path.length, (reads.finality k).gone i = false

/-- Whoever stays has got exactly the path. -/
def ClientNotifies.PathNotified (before : ClientNotifies) (reads : NotifyReads) (path : List Hash)
    (after : ClientNotifies) : Prop :=
  ∀ i channel, before.StaysOpen reads path i channel → ∃ channel',
    after.finalityChannels[i]? = some channel' ∧ hashes channel' = hashes channel ++ path

/-- A committed finalization goes along a path from the last finalized block to
the requested one. -/
theorem LockedClient.commits_path {client : LockedClient} {blockHash : BlockId → Except Error Hash}
    {id : BlockId} {justification : Option Justification} {notify : Bool} {s : ClientState σ}
    {operation : ClientImportOperation} {backend : σ}
    (hstore : store.FinalizesSequentially codec parent finalized)
    (hsees : client.Sees codec finalized s.backend)
    (hcommits : Commits store (client.applyFinality blockHash · id justification notify) s ()
      operation backend) :
    ∃ block, blockHash id = .ok block ∧
      Leads parent (finalized s.backend) (finals codec operation.op) ∧
      tip (finalized s.backend) (finals codec operation.op) = block ∧
      finalized backend = block := by
  obtain ⟨block, hblock, hfinalizes⟩ := applyFinality_finalizes_block hcommits.ran
  have htip : tip (finalized s.backend) (finals codec operation.op) = block := by
    rw [← hsees.codec]
    rcases hfinalizes.route with ⟨hlast, hcalls⟩ | ⟨_, route, -, -, -, hlast, hfinals⟩
    · rw [hcalls]
      exact (hsees.lastFinalized block hlast).symm
    · rw [hfinals, tip, List.getLastD_eq_getLast?, hlast]
      rfl
  refine ⟨block, hblock, hstore.leads hcommits.committed, htip, ?_⟩
  rw [hstore.applies hcommits.committed, htip]

/-- The receivers that stay get the whole path exactly when the headers can be
read, or nobody stays. -/
theorem LockedClient.finalizeBlock_delivers_iff {client : LockedClient}
    {blockHash : BlockId → Except Error Hash} {id : BlockId}
    {justification : Option Justification} {reads : NotifyReads} {s : ClientState σ}
    {operation : ClientImportOperation} {backend : σ}
    (hsees : client.Sees codec finalized s.backend)
    (hcommits : Commits store (client.applyFinality blockHash · id justification true) s ()
      operation backend)
    (hlength : (finals codec operation.op).length ≤ maxToNotify) :
    s.notifies.PathNotified reads (finals codec operation.op)
        (client.finalizeBlock store blockHash id justification true reads s).2.notifies ↔
      reads.ReadsHeaders (finals codec operation.op) ∨
        ∀ i channel, ¬ s.notifies.StaysOpen reads (finals codec operation.op) i channel := by
  obtain ⟨block, hblock, hfinalizes⟩ := applyFinality_finalizes_block hcommits.ran
  have hqueued : operation.notifyFinalized = finals codec operation.op := by
    rw [← hsees.codec] at hlength ⊢
    exact hfinalizes.all rfl hlength
  rcases hrun : client.finalizeBlock store blockHash id justification true reads s with ⟨result, t⟩
  rcases lockImportAndRun_cases hrun with ⟨hnone, -, -⟩ |
    ⟨r, operation', backend', sends, finalityChannels, notified, hcommits', hsends, hreceived,
      houtcome⟩
  · exact absurd hcommits (hnone _ _ _)
  obtain ⟨rfl, rfl⟩ := hcommits.unique hcommits'
  have hchannels : t.notifies.finalityChannels = finalityChannels := by
    rcases houtcome with ⟨-, -, rfl⟩ | ⟨failure, -, -, rfl⟩ <;> simp
  rw [hqueued] at hsends
  have hbound : sends.length ≤ (finals codec operation'.op).length := hsends.length_le
  have hgets : ∀ i channel, s.notifies.StaysOpen reads (finals codec operation'.op) i channel →
      ∃ channel', t.notifies.finalityChannels[i]? = some channel' ∧
        hashes channel' = hashes channel ++ (finals codec operation'.op).take sends.length := by
    intro i channel hstays
    rw [hchannels]
    exact hsends.received_of_open hreceived hstays.channel_eq hstays.isOpen
      fun k hk ↦ hstays.stays k (by omega)
  constructor
  · intro hdelivered
    by_cases hsome : ∃ i channel, s.notifies.StaysOpen reads (finals codec operation'.op) i channel
    · left
      obtain ⟨i, channel, hstays⟩ := hsome
      obtain ⟨channel', hi, hall⟩ := hdelivered i channel hstays
      obtain ⟨channel'', hi', htaken⟩ := hgets i channel hstays
      obtain rfl : channel' = channel'' := Option.some.inj (hi.symm.trans hi')
      have hpath : finals codec operation'.op =
          (finals codec operation'.op).take sends.length :=
        List.append_cancel_left (hall.symm.trans htaken)
      have hlengths := congrArg List.length hpath
      rw [List.length_take] at hlengths
      exact hsends.length_eq_iff.mp (by omega)
    · right
      intro i channel hstays
      exact hsome ⟨i, channel, hstays⟩
  · rintro (hreads | hnobody) i channel hstays
    · have hall : sends.length = (finals codec operation'.op).length :=
        hsends.length_eq_iff.mpr hreads
      obtain ⟨channel', hi, htaken⟩ := hgets i channel hstays
      refine ⟨channel', hi, ?_⟩
      rw [htaken, hall, List.take_length]
    · exact absurd hstays (hnobody i channel)

/-- In every run each stream descends, without repeating itself, and a
committed finalization is notified to those who stay exactly when the headers
can be read after the commit. -/
theorem finality_streams {start t : ClientState σ} (hacyclic : Acyclic parent)
    (hstore : store.FinalizesSequentially codec parent finalized)
    (hstart : start.notifies.finalityChannels = [])
    (hrun : Transition.Reaches (FinalityEvent.next store)
      (fun s event ↦ event.Sees codec finalized s) start t) :
    (∀ channel ∈ t.notifies.finalityChannels,
      (hashes channel).Pairwise (Descends parent) ∧ (hashes channel).Nodup) ∧
    ∀ (client : LockedClient) (blockHash : BlockId → Except Error Hash) (id : BlockId)
      (justification : Option Justification) (reads : NotifyReads)
      (operation : ClientImportOperation) (backend : σ),
      client.Sees codec finalized t.backend →
      Commits store (client.applyFinality blockHash · id justification true) t () operation
        backend →
      ∃ block, blockHash id = .ok block ∧
        Leads parent (finalized t.backend) (finals codec operation.op) ∧
        tip (finalized t.backend) (finals codec operation.op) = block ∧
        finalized backend = block ∧
        ((finals codec operation.op).length ≤ maxToNotify →
          (t.notifies.PathNotified reads (finals codec operation.op)
              (client.finalizeBlock store blockHash id justification true reads t).2.notifies ↔
            reads.ReadsHeaders (finals codec operation.op) ∨
              ∀ i channel, ¬ t.notifies.StaysOpen reads (finals codec operation.op) i
                channel)) := by
  have hfollows : t.Follows parent finalized := by
    refine hrun.invariant (by simp [ClientState.Follows, hstart]) ?_
    intro s event s' hs hsees hnext
    exact FinalityEvent.next_follows hstore hsees hs hnext
  constructor
  · intro channel hchannel
    exact ⟨(hfollows channel hchannel).pairwise, (hfollows channel hchannel).nodup hacyclic⟩
  · intro client blockHash id justification reads operation backend hsees hcommits
    obtain ⟨block, hblock, hleads, htip, hfinalized⟩ :=
      LockedClient.commits_path hstore hsees hcommits
    exact ⟨block, hblock, hleads, htip, hfinalized,
      LockedClient.finalizeBlock_delivers_iff hsees hcommits⟩

end Streams

namespace Sample

/-- A store of the last finalized block. -/
def finalityStore : Store Hash where
  beginOperation _ := .ok ()
  commitOperation last op :=
    if Leads parent last (finals codec op) then .ok (tip last (finals codec op))
    else .error (.backend "non-sequential finalization")

theorem finalityStore_finalizesSequentially :
    finalityStore.FinalizesSequentially codec parent fun last ↦ last where
  leads h := by
    unfold finalityStore at h
    simp only at h
    split at h
    · assumption
    · simp at h
  applies h := by
    unfold finalityStore at h
    simp only at h
    split at h
    · exact (Except.ok.inj h).symm
    · simp at h

/-- Genesis is final, and nobody listens. -/
def genesisFinal : ClientState Hash := ⟨[0, 0], ⟨[], [], []⟩⟩

def oneListener : ClientState Hash := ⟨[0, 0], ⟨[], [], [Channel.opened]⟩⟩

def headerReads : NotifyReads := ⟨fun _ ↦ ⟨.ok (some firstHeader), fun _ ↦ false⟩, fun _ ↦ false⟩

theorem oneListener_reached : Transition.Reaches (FinalityEvent.next finalityStore)
    (fun s event ↦ event.Sees codec (fun last ↦ last) s) genesisFinal oneListener :=
  .single ⟨.subscribe, trivial, rfl⟩

theorem locked_sees : locked.Sees codec (fun last ↦ last) oneListener.backend :=
  ⟨rfl, fun _ h ↦ (Except.ok.inj h).symm⟩

theorem locked_commits : Commits finalityStore
    (locked.applyFinality blockHash · (.hash [2, 6]) none true) oneListener ()
    ⟨[.markFinalized [1, 5] none, .markFinalized [2, 6] none], none, [[1, 5], [2, 6]]⟩ [2, 6] :=
  ⟨rfl, rfl, rfl⟩

end Sample

theorem finality_streams_two_blocks : ∃ channel,
    (Sample.locked.finalizeBlock Sample.finalityStore Sample.blockHash (.hash [2, 6]) none true
        Sample.headerReads Sample.oneListener).2.notifies.finalityChannels[0]? = some channel ∧
      hashes channel = [[1, 5], [2, 6]] := by
  obtain ⟨-, hcalls⟩ := finality_streams Sample.acyclic_parent
    Sample.finalityStore_finalizesSequentially rfl Sample.oneListener_reached
  obtain ⟨block, -, -, -, -, hiff⟩ := hcalls Sample.locked Sample.blockHash (.hash [2, 6]) none
    Sample.headerReads _ _ Sample.locked_sees Sample.locked_commits
  have hlength : (finals Sample.codec
      [.markFinalized [1, 5] none, .markFinalized [2, 6] none]).length ≤ maxToNotify := by
    decide
  have hreads : Sample.headerReads.ReadsHeaders (finals Sample.codec
      [.markFinalized [1, 5] none, .markFinalized [2, 6] none]) := fun _ _ ↦ ⟨_, rfl⟩
  exact (hiff hlength).mpr (Or.inl hreads) 0 .opened ⟨rfl, ⟨rfl, rfl⟩, fun _ _ ↦ rfl⟩

/-- Two blocks are finalized, and a subscriber who stays gets the first of
them alone, since the header of the second cannot be read. -/
theorem finality_notified_in_part :
    Transition.Reaches (FinalityEvent.next Sample.finalityStore)
      (fun s event ↦ event.Sees Sample.codec (fun last ↦ last) s)
      Sample.genesisFinal Sample.oneListener ∧
    Commits Sample.finalityStore
      (Sample.locked.applyFinality Sample.blockHash · (.hash [2, 6]) none true)
      Sample.oneListener ()
      ⟨[.markFinalized [1, 5] none, .markFinalized [2, 6] none], none, [[1, 5], [2, 6]]⟩ [2, 6] ∧
    Sample.oneListener.notifies.StaysOpen Sample.failingReads [[1, 5], [2, 6]] 0 .opened ∧
    (Sample.locked.finalizeBlock Sample.finalityStore Sample.blockHash (.hash [2, 6]) none true
        Sample.failingReads Sample.oneListener).2.notifies.finalityChannels =
      [⟨true, false, [⟨[1, 5], Sample.firstHeader⟩]⟩] ∧
    ¬ Sample.oneListener.notifies.PathNotified Sample.failingReads [[1, 5], [2, 6]]
      (Sample.locked.finalizeBlock Sample.finalityStore Sample.blockHash (.hash [2, 6]) none true
        Sample.failingReads Sample.oneListener).2.notifies := by
  have hstays : Sample.oneListener.notifies.StaysOpen Sample.failingReads [[1, 5], [2, 6]] 0
      .opened := ⟨rfl, ⟨rfl, rfl⟩, fun _ _ ↦ rfl⟩
  have hchannels : (Sample.locked.finalizeBlock Sample.finalityStore Sample.blockHash
      (.hash [2, 6]) none true Sample.failingReads
        Sample.oneListener).2.notifies.finalityChannels =
          [⟨true, false, [⟨[1, 5], Sample.firstHeader⟩]⟩] := rfl
  refine ⟨Sample.oneListener_reached, Sample.locked_commits, hstays, hchannels, ?_⟩
  intro hnotified
  obtain ⟨channel, hi, hhashes⟩ := hnotified 0 .opened hstays
  rw [hchannels] at hi
  obtain rfl := Option.some.inj hi
  exact absurd hhashes (by decide)

end SubArchive
