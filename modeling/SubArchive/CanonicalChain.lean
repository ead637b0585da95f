import SubArchive.FinalityStreams

/-!
# Following the canonical chain

The notification of an import says whether the block is the new best one and,
when it does not stand on the previous best block, by which route the chain
moves to its parent.  A subscriber who applies the notifications to a chain of
hashes has the canonical chain, as long as every change of the best block is
notified.
-/

namespace SubArchive

open Ancestry Broadcast Results

/-! ## The best block of an operation -/

/-- The block that the call makes the best one. -/
def OpCall.best? (codec : Codec) : OpCall → Option Hash
  | .setBlockData header _ _ state =>
      if state = .normal then none else some (codec.hashHeader header)
  | _ => none

def OpCall.isMarkHead : OpCall → Bool
  | .markHead _ => true
  | _ => false

/-- The call stores no block as the best one and marks no head. -/
def OpCall.KeepsBest (codec : Codec) (call : OpCall) : Prop :=
  call.best? codec = none ∧ call.isMarkHead = false

/-- The best block after an operation that marks no head. -/
def bestAfter (codec : Codec) (best : Hash) (op : List OpCall) : Hash :=
  (op.filterMap (OpCall.best? codec)).getLastD best

namespace LockedClient

variable {client : LockedClient} {operation operation' : ClientImportOperation}
  {importBlock : BlockImportRequest} {newCache : List (Bytes × Bytes)}
  {forkChoice : ForkChoiceStrategy} {outcome : ImportOutcome}

/-- A block that becomes final is on the best chain, so it is not made the
head. -/
def OnBestChain (client : LockedClient) (block : Hash) : Prop :=
  ∀ route, client.treeRoute client.info.bestHash block = .ok route → route.common = block

/-- What the import of a block records: calls that keep the best block, the
block, and a notification with the route from the best block. -/
structure Stores (client : LockedClient) (importBlock : BlockImportRequest)
    (forkChoice : ForkChoiceStrategy) (treeRoute : Option TreeRoute)
    (middle operation : ClientImportOperation) : Prop where
  route : client.routeFromBest importBlock forkChoice = .ok treeRoute
  keeps : ∀ call ∈ middle.op, call.KeepsBest client.codec
  quiet : middle.notifyImported = none
  stored : operation = client.queueNotifications
    (middle.calling (client.headerCalls importBlock forkChoice)) importBlock forkChoice treeRoute

/-- Finality makes the block the head when it is not on the best chain. -/
theorem applyFinality_head {block bestBlock : Hash} {justification : Option Justification}
    {notify : Bool}
    (h : client.applyFinalityWithBlockHash operation block justification bestBlock notify =
      .ok operation') :
    operation' = operation ∨ ∃ route enacted, client.treeRoute bestBlock block = .ok route ∧
      operation'.op = operation.op ++ ((if route.common ≠ block then [.markHead block] else []) ++
        finalityCalls block justification enacted) ∧
      operation'.notifyImported = operation.notifyImported := by
  unfold applyFinalityWithBlockHash at h
  simp only [bind_eq_ok, reading_eq_ok] at h
  obtain ⟨lastFinalized, -, h⟩ := h
  split at h
  · exact Or.inl (pure_eq_ok.mp h).symm
  · simp only [bind_eq_ok, reading_eq_ok, ensure_eq_ok, record_eq_ok, pure_eq_ok] at h
    obtain ⟨route, -, _, -, fromBest, hfromBest, _, hhead, _, -, _, hmarks, _, -, _, ⟨-, rfl⟩,
      rfl⟩ := h
    obtain rfl := recordWhen_eq_ok hhead
    obtain rfl := foldlM_markFinalized hmarks
    exact Or.inr ⟨fromBest, route.enacted, hfromBest, by simp [finalityCalls], by simp⟩

theorem keepsBest_of_mem_finalityCalls {block : Hash} {justification : Option Justification}
    {enacted : List Hash} {call : OpCall} (h : call ∈ finalityCalls block justification enacted) :
    call.KeepsBest client.codec := by
  rcases List.mem_append.mp h with h | h
  · obtain ⟨hash, -, rfl⟩ := List.mem_map.mp h
    exact ⟨rfl, rfl⟩
  · rw [List.mem_singleton.mp h]
    exact ⟨rfl, rfl⟩

theorem applyFinality_keepsBest {block : Hash} {justification : Option Justification}
    {notify : Bool} (hbest : client.OnBestChain block)
    (h : client.applyFinalityWithBlockHash operation block justification client.info.bestHash
      notify = .ok operation') :
    ∃ calls, operation'.op = operation.op ++ calls ∧
      (∀ call ∈ calls, call.KeepsBest client.codec) ∧
      operation'.notifyImported = operation.notifyImported := by
  rcases applyFinality_head h with rfl | ⟨route, enacted, hroute, hop, hquiet⟩
  · exact ⟨[], by simp, by simp, rfl⟩
  · rw [if_neg (not_not.mpr (hbest route hroute)), List.nil_append] at hop
    exact ⟨_, hop, fun _ ↦ keepsBest_of_mem_finalityCalls, hquiet⟩

theorem importHeader_stores {middle : ClientImportOperation}
    (hkeeps : ∀ call ∈ middle.op, call.KeepsBest client.codec)
    (hquiet : middle.notifyImported = none)
    (h : client.importHeader middle importBlock forkChoice = .ok (operation, outcome)) :
    ∃ treeRoute middle, client.Stores importBlock forkChoice treeRoute middle operation := by
  unfold importHeader at h
  simp only [bind_eq_ok, record_eq_ok, pure_eq_ok, Prod.mk.injEq] at h
  obtain ⟨treeRoute, hroute, _, ⟨-, rfl⟩, _, ⟨-, rfl⟩, rfl, -⟩ := h
  exact ⟨treeRoute, middle, hroute, hkeeps, hquiet, by simp [headerCalls]⟩

section Import

variable (hbest : importBlock.finalized = true → client.OnBestChain importBlock.post.parentHash)
include hbest

theorem enactStorageChanges_keepsBest {storages : StorageChanges}
    (h : client.enactStorageChanges .begin importBlock newCache storages = .ok operation) :
    (∀ call ∈ operation.op, call.KeepsBest client.codec) ∧
      operation.notifyImported = none := by
  obtain ⟨middle, hparent, rfl⟩ := enactStorageChanges_cases h
  have hmiddle : ∃ calls, middle.op = [.beginStateOperation importBlock.post.parentHash] ++ calls ∧
      (∀ call ∈ calls, call.KeepsBest client.codec) ∧ middle.notifyImported = none := by
    unfold finalizeParent at hparent
    split at hparent
    · rename_i hfinalized
      exact applyFinality_keepsBest (hbest hfinalized) hparent
    · obtain rfl := Except.ok.inj hparent
      exact ⟨[], rfl, by simp, rfl⟩
  obtain ⟨calls, hop, hcalls, hquiet⟩ := hmiddle
  refine ⟨?_, hquiet⟩
  intro call hcall
  rw [ClientImportOperation.op_calling, hop, List.mem_append, List.mem_append] at hcall
  rcases hcall with (hcall | hcall) | hcall
  · rw [List.mem_singleton.mp hcall]
    exact ⟨rfl, rfl⟩
  · exact hcalls call hcall
  · have hcall' : call = .updateCache newCache ∨ call = .updateOffchainStorage ∨
        call = .updateDbStorage storages.transactionStorageRoot ∨
        call = .updateStorage ⟨storages.mainStorageChanges, storages.childStorageChanges⟩ ∨
        call = .updateTransactionIndex := by
      by_cases hoffchain : client.offchainIndexingApi <;> simp [hoffchain] at hcall <;> tauto
    rcases hcall' with rfl | rfl | rfl | rfl | rfl <;> exact ⟨rfl, rfl⟩

theorem importNew_stores
    (h : client.importNew .begin importBlock newCache forkChoice = .ok (operation, outcome)) :
    ∃ treeRoute middle, client.Stores importBlock forkChoice treeRoute middle operation := by
  unfold importNew at h
  rw [bind_eq_ok] at h
  obtain ⟨_, -, h⟩ := h
  rcases hstorages : importBlock.storageChanges with _ | storages
  · simp only [hstorages] at h
    exact importHeader_stores (by simp [ClientImportOperation.begin]) rfl h
  · simp only [hstorages, bind_eq_ok] at h
    obtain ⟨middle, henact, h⟩ := h
    obtain ⟨hkeeps, hquiet⟩ := enactStorageChanges_keepsBest hbest henact
    exact importHeader_stores hkeeps hquiet h

theorem applyBlock_stores
    (h : client.applyBlock .begin importBlock newCache = .ok (operation, outcome)) :
    operation = .begin ∨ ∃ forkChoice treeRoute middle, importBlock.forkChoice = some forkChoice ∧
      client.Stores importBlock forkChoice treeRoute middle operation := by
  unfold applyBlock at h
  simp only [bind_eq_ok, ensure_eq_ok] at h
  obtain ⟨_, -, _, -, h⟩ := h
  rcases hfork : importBlock.forkChoice with _ | forkChoice
  · simp [hfork] at h
  · simp only [hfork] at h
    unfold executeAndImportBlock at h
    simp only [bind_eq_ok, reading_eq_ok] at h
    obtain ⟨status, -, h⟩ := h
    rcases hexisting : importBlock.importExisting <;> cases status <;>
      simp only [hexisting, pure_eq_ok, throw_ne_ok, Prod.mk.injEq] at h
    · exact Or.inl h.1.symm
    · obtain ⟨treeRoute, middle, hstores⟩ := importNew_stores hbest h
      exact Or.inr ⟨forkChoice, treeRoute, middle, rfl, hstores⟩
    · obtain ⟨treeRoute, middle, hstores⟩ := importNew_stores hbest h
      exact Or.inr ⟨forkChoice, treeRoute, middle, rfl, hstores⟩

end Import

theorem Stores.isMarkHead {treeRoute : Option TreeRoute} {middle : ClientImportOperation}
    (h : client.Stores importBlock forkChoice treeRoute middle operation) :
    ∀ call ∈ operation.op, call.isMarkHead = false := by
  intro call hcall
  rw [h.stored, op_queueNotifications, ClientImportOperation.op_calling, List.mem_append] at hcall
  rcases hcall with hcall | hcall
  · exact (h.keeps call hcall).2
  · rcases List.mem_pair.mp hcall with rfl | rfl <;> rfl

/-- The best block after the import of a block. -/
theorem Stores.bestAfter {treeRoute : Option TreeRoute} {middle : ClientImportOperation}
    (h : client.Stores importBlock forkChoice treeRoute middle operation) (best : Hash) :
    SubArchive.bestAfter client.codec best operation.op =
      if client.isNewBest importBlock forkChoice then client.codec.hashHeader importBlock.post
      else best := by
  have hmiddle : middle.op.filterMap (OpCall.best? client.codec) = [] :=
    List.filterMap_eq_nil_iff.mpr fun call hcall ↦ (h.keeps call hcall).1
  rw [SubArchive.bestAfter, h.stored, op_queueNotifications, ClientImportOperation.op_calling,
    List.filterMap_append, hmiddle, List.nil_append]
  have hheader : (client.headerCalls importBlock forkChoice).filterMap
      (OpCall.best? client.codec) =
        if client.isNewBest importBlock forkChoice then [client.codec.hashHeader importBlock.post]
        else [] := by
    rcases hfinalized : importBlock.finalized
    · rcases hbest : client.isNewBest importBlock forkChoice <;>
        simp [headerCalls, leafState, OpCall.best?, hfinalized, hbest]
    · simp [headerCalls, leafState, OpCall.best?, hfinalized, isNewBest]
  rw [hheader]
  split <;> rfl

end LockedClient

/-! ## A subscriber's chain -/

/-- Apply a notification to a chain of hashes that leads to the best block. -/
def BlockImportNotification.apply (chain : List Hash) (n : BlockImportNotification) : List Hash :=
  if n.isNewBest then
    match n.treeRoute with
    | none => chain ++ [n.hash]
    | some route =>
        chain.take (chain.length - route.retracted.length) ++ route.enacted ++ [n.hash]
  else chain

section Subscriber

variable {parent : Hash → Option Hash} {root best : Hash} {chain : List Hash}

theorem BlockImportNotification.tip_apply (n : BlockImportNotification) :
    tip root (n.apply chain) = if n.isNewBest then n.hash else tip root chain := by
  unfold apply
  split
  · cases n.treeRoute <;> exact tip_append_singleton
  · rfl

/-- The chain of hashes from a root to a block. -/
structure IsChainTo (parent : Hash → Option Hash) (root best : Hash) (chain : List Hash) :
    Prop where
  leads : Leads parent root chain
  tip : tip root chain = best

theorem IsChainTo.extend {hash : Hash} (h : IsChainTo parent root best chain)
    (hparent : parent hash = some best) : IsChainTo parent root hash (chain ++ [hash]) where
  leads := leads_append_singleton.mpr ⟨h.leads, by rw [hparent, h.tip]⟩
  tip := tip_append_singleton

/-- Going along a route from the best block. -/
theorem IsChainTo.reroute {route : TreeRoute} {target : Hash} (hroot : parent root = none)
    (h : IsChainTo parent root best chain) (hroute : route.IsRoute parent best target) :
    IsChainTo parent root target
      (chain.take (chain.length - route.retracted.length) ++ route.enacted) := by
  obtain ⟨before, hbefore, htip⟩ := Ancestry.Leads.suffix_of_root hroot h.leads hroute.retracted
    (h.tip.trans hroute.source.symm)
  have htake : chain.take (chain.length - route.retracted.length) = before := by
    rw [hbefore, List.length_append, List.length_reverse, Nat.add_sub_cancel, List.take_left']
    rfl
  have hleads : Leads parent root before := by
    have hwhole := h.leads
    rw [hbefore, leads_append] at hwhole
    exact hwhole.1
  rw [htake]
  refine ⟨leads_append.mpr ⟨hleads, ?_⟩, ?_⟩
  · rw [htip]
    exact hroute.enacted
  · rw [tip_append, htip]
    exact hroute.target

/-! ## Notified imports -/

variable {codec : Codec}

/-- A chain to the best block becomes one to the best block after the
operation, when its notification, if there is one, is applied. -/
def ClientImportOperation.Announces (codec : Codec) (parent : Hash → Option Hash) (root best : Hash)
    (operation : ClientImportOperation) : Prop :=
  ∀ chain, IsChainTo parent root best chain →
    IsChainTo parent root (bestAfter codec best operation.op)
      (operation.notifyImported.elim chain fun summary ↦ summary.notification.apply chain)

theorem bestAfter_of_keepsBest {op : List OpCall} (h : ∀ call ∈ op, call.KeepsBest codec) :
    bestAfter codec best op = best := by
  rw [bestAfter, List.filterMap_eq_nil_iff.mpr fun call hcall ↦ (h call hcall).1]
  rfl

theorem ClientImportOperation.announces_of_keepsBest {operation : ClientImportOperation}
    (h : ∀ call ∈ operation.op, call.KeepsBest codec) (hquiet : operation.notifyImported = none) :
    operation.Announces codec parent root best := by
  intro chain hchain
  rw [bestAfter_of_keepsBest h, hquiet]
  exact hchain

/-- What the client reads of the best block and of the tree is so. -/
structure LockedClient.SeesBest (client : LockedClient) (codec : Codec)
    (parent : Hash → Option Hash) (best : Hash) : Prop where
  codec : client.codec = codec
  bestHash : client.info.bestHash = best
  routes : ∀ source target route, client.treeRoute source target = .ok route →
    route.IsRoute parent source target

/-- The import is notified, unless it leaves the best block as it is: a new
best block on top of the best one is not notified during a sync. -/
def LockedClient.Notifies (client : LockedClient) (importBlock : BlockImportRequest) : Prop :=
  importBlock.origin.makesNotifications = true ∨
    client.info.bestHash ≠ importBlock.post.parentHash ∨
    ∀ forkChoice, importBlock.forkChoice = some forkChoice →
      client.isNewBest importBlock forkChoice = false

namespace LockedClient.Stores

variable {client : LockedClient} {importBlock : BlockImportRequest}
  {forkChoice : ForkChoiceStrategy} {treeRoute : Option TreeRoute}
  {middle operation : ClientImportOperation}

/-- What is applied to the chain when the import is notified. -/
theorem elim_of_notified (h : client.Stores importBlock forkChoice treeRoute middle operation)
    (hnotified : importBlock.origin.makesNotifications || treeRoute.isSome) (chain : List Hash) :
    (operation.notifyImported.elim chain fun summary ↦ summary.notification.apply chain) =
      if client.isNewBest importBlock forkChoice then
        (treeRoute.elim chain fun route ↦
          chain.take (chain.length - route.retracted.length) ++ route.enacted) ++
            [client.codec.hashHeader importBlock.post]
      else chain := by
  rw [h.stored, queueNotifications, if_pos hnotified]
  cases treeRoute <;> rfl

theorem elim_of_not_notified (h : client.Stores importBlock forkChoice treeRoute middle operation)
    (hnot : ¬ (importBlock.origin.makesNotifications || treeRoute.isSome) = true)
    (chain : List Hash) :
    (operation.notifyImported.elim chain fun summary ↦ summary.notification.apply chain) =
      chain := by
  rw [h.stored, queueNotifications, if_neg hnot, ClientImportOperation.notifyImported_calling,
    h.quiet]
  rfl

/-- The import of a block announces the new best block. -/
theorem announces (h : client.Stores importBlock forkChoice treeRoute middle operation)
    (hfork : importBlock.forkChoice = some forkChoice) (hroot : parent root = none)
    (hsees : client.SeesBest codec parent best)
    (hparent : parent (codec.hashHeader importBlock.post) = some importBlock.post.parentHash)
    (hnotifies : client.Notifies importBlock) :
    operation.Announces codec parent root best := by
  intro chain hchain
  have hafter := h.bestAfter best
  have hroute := h.route
  obtain rfl := hsees.codec
  obtain rfl := hsees.bestHash
  rw [hafter]
  unfold routeFromBest at hroute
  by_cases hbest : client.isNewBest importBlock forkChoice = true
  · rw [if_pos hbest]
    by_cases hon : client.info.bestHash = importBlock.post.parentHash
    · -- on top of the best block
      rw [if_neg (fun hboth ↦ hboth.2 hon), Except.ok.injEq] at hroute
      subst hroute
      have horigin : importBlock.origin.makesNotifications = true := by
        rcases hnotifies with horigin | hother | hsame
        · exact horigin
        · exact absurd hon hother
        · exact absurd hbest (by simp [hsame forkChoice hfork])
      rw [h.elim_of_notified (by simp [horigin]), if_pos hbest]
      exact hchain.extend (by rw [hparent, hon])
    · -- on top of another block
      rw [if_pos ⟨hbest, hon⟩] at hroute
      obtain ⟨route, hread, rfl⟩ := map_eq_ok.mp hroute
      rw [reading_eq_ok] at hread
      rw [h.elim_of_notified (by simp), if_pos hbest]
      exact (hchain.reroute hroot (hsees.routes _ _ _ hread)).extend hparent
  · rw [if_neg hbest]
    by_cases hnotified : (importBlock.origin.makesNotifications || treeRoute.isSome) = true
    · rw [h.elim_of_notified hnotified, if_neg hbest]
      exact hchain
    · rw [h.elim_of_not_notified hnotified]
      exact hchain

end LockedClient.Stores

/-! ## A subscriber that stays -/

section Streams

variable {σ : Type} {store : Store σ} {bestOf : σ → Hash} {i : ℕ}
  {channel : Channel BlockImportNotification}

/-- The subscriber is there, and applying what it has got since leads to the
best block. -/
def ClientState.Shows (parent : Hash → Option Hash) (root : Hash) (bestOf : σ → Hash) (i : ℕ)
    (received : List BlockImportNotification) (chain : List Hash) (s : ClientState σ) : Prop :=
  ∃ channel news, s.notifies.importChannels[i]? = some channel ∧ channel.Open ∧
    channel.received = received ++ news ∧
    IsChainTo parent root (bestOf s.backend) (news.foldl BlockImportNotification.apply chain)

theorem ClientNotifies.importChannels_notifyImported {notifies : ClientNotifies}
    {gone : ℕ → Bool} {summary : Option ImportSummary}
    (hi : notifies.importChannels[i]? = some channel) (hopen : channel.Open)
    (hstays : summary.isSome → gone i = false) :
    (notifies.notifyImported gone summary).importChannels[i]? =
      some { channel with received :=
        channel.received ++ (summary.map ImportSummary.notification).toList } := by
  rcases summary with _ | summary
  · obtain ⟨hattached, hclosed⟩ := hopen
    simp [notifyImported, hi, Channel.retainOpen, hattached, hclosed]
  · have hgone : ∀ entry ∈ [(summary.notification, gone i)], entry.2 = false := by
      simpa using hstays rfl
    simp [notifyImported, getElem?_deliverAll, hi, Channel.deliver_of_open hopen hgone]

variable {received : List BlockImportNotification} {ρ ε : Type} {fromError : Error → ε}
  {f : ClientImportOperation → Except (Panic ⊕ ε) (ρ × ClientImportOperation)}
  {reads : NotifyReads} {s : ClientState σ}

/-- The headers of the finalized blocks can be read after a commit, and the
receiver stays. -/
structure NotifyReads.Reach (reads : NotifyReads) (i : ℕ) : Prop where
  header : ∀ k, ∃ header, (reads.finality k).header = .ok (some header)
  stays : reads.importGone i = false

/-- A store that makes a block the best one when it is stored as such and no
head is marked beside it. -/
def Store.TracksBest (store : Store σ) (codec : Codec) (bestOf : σ → Hash) : Prop :=
  ∀ s op s', store.commitOperation s op = .ok s' → (∀ call ∈ op, call.isMarkHead = false) →
    bestOf s' = bestAfter codec (bestOf s) op

/-- Committing an operation that announces its best block keeps the subscriber
up to date. -/
theorem lockImportAndRun_shows (hstore : store.TracksBest codec bestOf)
    (hmarks : ∀ r operation, f .begin = .ok (r, operation) →
      ∀ call ∈ operation.op, call.isMarkHead = false)
    (hannounces : ∀ r operation, f .begin = .ok (r, operation) →
      operation.Announces codec parent root (bestOf s.backend))
    (hreach : ∀ r operation, f .begin = .ok (r, operation) →
      operation.notifyImported = none ∨ reads.Reach i)
    (h : s.Shows parent root bestOf i received chain) :
    (lockImportAndRun store fromError f reads s).2.Shows parent root bestOf i received chain := by
  rcases hrun : lockImportAndRun store fromError f reads s with ⟨result, t⟩
  rcases lockImportAndRun_cases hrun with ⟨-, -, rfl⟩ |
    ⟨r, operation, backend, sends, finalityChannels, notified, hcommits, hsends, -, houtcome⟩
  · exact h
  obtain ⟨channel, news, hi, hopen, hreceived, hchain⟩ := h
  have hbest : bestOf backend = bestAfter codec (bestOf s.backend) operation.op :=
    hstore _ _ _ hcommits.committed (hmarks r operation hcommits.ran)
  have hnext := hannounces r operation hcommits.ran _ hchain
  have hstays := hreach r operation hcommits.ran
  rw [← hbest] at hnext
  rcases houtcome with ⟨-, -, rfl⟩ | ⟨failure, rfl, -, rfl⟩
  · refine ⟨_, news ++ (operation.notifyImported.map ImportSummary.notification).toList,
      ClientNotifies.importChannels_notifyImported hi hopen ?_, hopen, ?_, ?_⟩
    · intro hsome
      rcases hstays with hnone | hreach
      · simp [hnone] at hsome
      · exact hreach.stays
    · rw [hreceived, List.append_assoc]
    · rw [List.foldl_append]
      rcases hsummary : operation.notifyImported with _ | summary <;> simpa [hsummary] using hnext
  · rcases hstays with hnone | hreach
    · refine ⟨channel, news, hi, hopen, hreceived, ?_⟩
      rw [hnone] at hnext
      exact hnext
    · have hall := hsends.length_eq_iff.mpr fun k _ ↦ hreach.header k
      rcases hsends.next with ⟨-, hok⟩ | ⟨hlt, -⟩
      · simp at hok
      · omega

/-- What keeps the notifications in step with the best block. -/
def FinalityEvent.InStep (codec : Codec) (parent : Hash → Option Hash) (bestOf : σ → Hash)
    (i : ℕ) (s : ClientState σ) : FinalityEvent → Prop
  | .subscribe | .leave _ => True
  | .finalizeBlock client blockHash id _ _ _ =>
      client.SeesBest codec parent (bestOf s.backend) ∧
        ∀ block, blockHash id = .ok block → client.OnBestChain block
  | .importBlock locked _ _ params _ reads =>
      locked.SeesBest codec parent (bestOf s.backend) ∧
        parent (codec.hashHeader params.post) = some params.post.parentHash ∧
        (params.finalized = true → locked.OnBestChain params.post.parentHash) ∧
        locked.Notifies params ∧ reads.Reach i

theorem FinalityEvent.next_shows {t : ClientState σ} {event : FinalityEvent}
    (hroot : parent root = none) (hstore : store.TracksBest codec bestOf)
    (hin : event.InStep codec parent bestOf i s) (h : s.Shows parent root bestOf i received chain)
    (hnext : next store s event = some t) : t.Shows parent root bestOf i received chain := by
  cases event with
  | subscribe =>
      obtain rfl := Option.some.inj hnext
      exact h
  | leave gone =>
      obtain rfl := Option.some.inj hnext
      exact h
  | finalizeBlock client blockHash id justification notify reads =>
      obtain rfl := Option.some.inj hnext
      obtain ⟨hsees, hon⟩ := hin
      have hkeeps : ∀ u operation,
          client.applyFinality blockHash .begin id justification notify = .ok (u, operation) →
          (∀ call ∈ operation.op, call.KeepsBest codec) ∧ operation.notifyImported = none := by
        intro u operation hran
        unfold LockedClient.applyFinality at hran
        simp only [bind_eq_ok, reading_eq_ok, pure_eq_ok, Prod.mk.injEq] at hran
        obtain ⟨block, hblock, _, hfinality, -, rfl⟩ := hran
        obtain ⟨calls, hop, hcalls, hquiet⟩ :=
          LockedClient.applyFinality_keepsBest (hon block hblock) hfinality
        rw [hop, ← hsees.codec]
        exact ⟨by simpa [ClientImportOperation.begin] using hcalls, hquiet⟩
      refine lockImportAndRun_shows hstore ?_ ?_ ?_ h
      · intro u operation hran call hcall
        exact ((hkeeps u operation hran).1 call hcall).2
      · intro u operation hran
        obtain ⟨hcalls, hquiet⟩ := hkeeps u operation hran
        exact ClientImportOperation.announces_of_keepsBest hcalls hquiet
      · intro u operation hran
        exact Or.inl (hkeeps u operation hran).2
  | importBlock locked client importingBlock params newCache reads =>
      obtain rfl := Option.some.inj hnext
      obtain ⟨hsees, hparent, hon, hnotifies, hreach⟩ := hin
      unfold LockedClient.importBlock
      split
      · exact h
      · exact h
      · rename_i prepared hprepare
        obtain ⟨hprepared, -⟩ := BlockImportRequest.prepare_cases hprepare
        have hpost : prepared.post = params.post := by rw [hprepared]; rfl
        have hfinalized : prepared.finalized = params.finalized := by rw [hprepared]
        have hstores : ∀ outcome operation,
            (Prod.swap <$> locked.applyBlock .begin prepared newCache) = .ok (outcome, operation) →
            operation = .begin ∨ ∃ forkChoice treeRoute middle,
              prepared.forkChoice = some forkChoice ∧
                locked.Stores prepared forkChoice treeRoute middle operation := by
          intro outcome operation hran
          obtain ⟨⟨operation', outcome'⟩, happly, hswap⟩ := map_eq_ok.mp hran
          obtain ⟨rfl, rfl⟩ := Prod.mk.inj hswap
          refine LockedClient.applyBlock_stores ?_ happly
          rw [hpost, hfinalized]
          exact hon
        have hnotifies' : locked.Notifies prepared := by
          rw [hprepared]
          exact hnotifies
        refine lockImportAndRun_shows hstore ?_ ?_ (fun _ _ _ ↦ Or.inr hreach) h
        · intro outcome operation hran
          rcases hstores outcome operation hran with rfl |
            ⟨forkChoice, treeRoute, middle, -, hstores⟩
          · simp [ClientImportOperation.begin]
          · exact hstores.isMarkHead
        · intro outcome operation hran
          rcases hstores outcome operation hran with rfl |
            ⟨forkChoice, treeRoute, middle, hfork, hstores⟩
          · have hempty : ∀ call ∈ ClientImportOperation.begin.op, call.KeepsBest codec := by
              simp [ClientImportOperation.begin]
            exact ClientImportOperation.announces_of_keepsBest hempty rfl
          · exact hstores.announces hfork hroot hsees (by rw [hpost]; exact hparent) hnotifies'

/-- As long as every change of the best block is notified and the subscriber
stays, applying the notifications of imports, one after the other, to the
canonical chain gives the canonical chain, across all reorganisations. -/
theorem import_stream_follows_best {start t : ClientState σ} (hroot : parent root = none)
    (hstore : store.TracksBest codec bestOf)
    (hi : start.notifies.importChannels[i]? = some channel) (hopen : channel.Open)
    (hchain : IsChainTo parent root (bestOf start.backend) chain)
    (hrun : Transition.Reaches (FinalityEvent.next store)
      (fun s event ↦ event.InStep codec parent bestOf i s) start t) :
    t.Shows parent root bestOf i channel.received chain :=
  hrun.invariant ⟨channel, [], hi, hopen, (List.append_nil _).symm, hchain⟩
    fun _ _ _ hs hin hnext ↦ FinalityEvent.next_shows hroot hstore hin hs hnext

end Streams

end Subscriber

namespace Sample

/-- The tree of the three blocks with a block beside them. -/
def sideTree (hash : Hash) : Option Hash := if hash = [1, 9] then some [0, 0] else parent hash

/-- A store of the best block. -/
def bestStore : Store Hash where
  beginOperation _ := .ok ()
  commitOperation best op := .ok (bestAfter codec best op)

theorem bestStore_tracksBest : bestStore.TracksBest codec fun best ↦ best :=
  fun _ _ _ hcommit _ ↦ (Except.ok.inj hcommit).symm

/-- The block beside the others is the best one. -/
def sideLocked : LockedClient :=
  { locked with
    info := ⟨[1, 9], 1, [0, 0], 0⟩
    treeRoute := fun source target ↦
      if source = [1, 9] ∧ target = [2, 6] then .ok ⟨[[1, 9]], [0, 0], [[1, 5], [2, 6]]⟩
      else .error (.backend "no route") }

/-- The third block, imported during a sync. -/
def syncedBlock : BlockImportRequest :=
  { finalBlock (some ⟨[], [], [7]⟩) with
    origin := .networkInitialSync
    justifications := none
    finalized := false }

def sideBest : ClientState Hash := ⟨[1, 9], ⟨[], [Channel.opened], []⟩⟩

theorem syncedBlock_inStep :
    (FinalityEvent.importBlock sideLocked threeBlocks none syncedBlock [] headerReads).InStep
      codec sideTree (fun best ↦ best) 0 sideBest := by
  refine ⟨⟨rfl, rfl, ?_⟩, rfl, by simp [syncedBlock], Or.inr (Or.inl (by decide)),
    ⟨fun _ ↦ ⟨_, rfl⟩, rfl⟩⟩
  intro source target route h
  unfold sideLocked at h
  simp only at h
  split at h
  · rename_i heq
    obtain ⟨rfl, rfl⟩ := heq
    obtain rfl := Except.ok.inj h
    exact ⟨by decide, rfl, by decide, rfl⟩
  · simp at h

end Sample

/-- The branch of three blocks overtakes a block beside it. -/
theorem import_stream_follows_best_reorg : ∃ channel,
    (Sample.sideLocked.importBlock Sample.bestStore Sample.threeBlocks none Sample.syncedBlock []
        Sample.headerReads Sample.sideBest).2.notifies.importChannels[0]? = some channel ∧
      channel.received.foldl BlockImportNotification.apply [[1, 9]] = [[1, 5], [2, 6], [3, 7]] ∧
      IsChainTo Sample.sideTree [0, 0] [3, 7] [[1, 5], [2, 6], [3, 7]] := by
  have hroot : Sample.sideTree [0, 0] = none := rfl
  have hi : Sample.sideBest.notifies.importChannels[0]? = some .opened := rfl
  have hchain : IsChainTo Sample.sideTree [0, 0] Sample.sideBest.backend [[1, 9]] :=
    ⟨by decide, rfl⟩
  obtain ⟨channel, news, hi, -, hreceived, hleads⟩ :=
    import_stream_follows_best hroot Sample.bestStore_tracksBest hi (by decide) hchain
      (.single ⟨_, Sample.syncedBlock_inStep, rfl⟩)
  have hlog : channel.received = [⟨[3, 7], .networkInitialSync, Sample.syncedBlock.post, true,
      some ⟨[[1, 9]], [0, 0], [[1, 5], [2, 6]]⟩⟩] := by
    obtain rfl : _ = channel := Option.some.inj hi
    rfl
  obtain rfl : channel.received = news := by simpa [Channel.opened] using hreceived
  have hfold : channel.received.foldl BlockImportNotification.apply [[1, 9]] =
      [[1, 5], [2, 6], [3, 7]] := by
    rw [hlog]
    rfl
  refine ⟨channel, hi, hfold, ?_⟩
  rw [← hfold]
  exact hleads

end SubArchive
