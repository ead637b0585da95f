import SubArchive.CanonicalChain
import SubArchive.Library.Merger

/-!
# What the network is told

`build_network_future` reads the notifications of imports one by one and those
of finality merged, and tells the network about them.  It runs beside the
client, in any order of steps, and ends when the client has shut down.
-/

namespace SubArchive

open Ancestry Broadcast

/-- The calls on the network and on the status sinks. -/
inductive NetworkCall where
  | announceBlock (hash : Hash)
  | newBestBlockImported (hash : Hash) (number : BlockNumber)
  | onBlockFinalized (hash : Hash) (header : Header)
  | sendStatus
  | sendNetworkState
deriving DecidableEq, Repr

namespace NetworkCall

def isImport : NetworkCall → Bool
  | .announceBlock _ | .newBestBlockImported _ _ => true
  | _ => false

def newBest? : NetworkCall → Option Hash
  | .newBestBlockImported hash _ => some hash
  | _ => none

def finalized? : NetworkCall → Option FinalityNotification
  | .onBlockFinalized hash header => some ⟨hash, header⟩
  | _ => none

end NetworkCall

/-- The future between two polls, or within the loop that merges finality
notifications. -/
structure NetworkFuture where
  announceImportedBlocks : Bool
  importsTaken : ℕ
  finality : Merger FinalityNotification
  calls : List NetworkCall
  finished : Bool
deriving DecidableEq

namespace NetworkFuture

def start (announceImportedBlocks : Bool) : NetworkFuture :=
  ⟨announceImportedBlocks, 0, ⟨0, none⟩, [], false⟩

/-- What an import notification makes the future tell the network. -/
def importCalls (announceImportedBlocks : Bool) (n : BlockImportNotification) : List NetworkCall :=
  (if announceImportedBlocks then [.announceBlock n.hash] else []) ++
    if n.isNewBest then [.newBestBlockImported n.hash n.header.number] else []

/-- The future is at its `select!`. -/
def AtSelect (future : NetworkFuture) : Prop :=
  future.finished = false ∧ future.finality.last = none

instance (future : NetworkFuture) : Decidable future.AtSelect :=
  inferInstanceAs (Decidable (_ ∧ _))

/-- The branch of the imported blocks; the stream ends when the client has
shut down. -/
def onImport (imports : List BlockImportNotification) (shutDown : Bool) (future : NetworkFuture) :
    Option NetworkFuture :=
  if future.AtSelect then
    match imports[future.importsTaken]? with
    | some n => some { future with
        importsTaken := future.importsTaken + 1
        calls := future.calls ++ importCalls future.announceImportedBlocks n }
    | none => if shutDown then some { future with finished := true } else none
  else none

/-- One round of the loop in the stream of finality notifications, and the
branch of the finalized blocks after it. -/
def onFinality (notifications : List FinalityNotification) (future : NetworkFuture) :
    Option NetworkFuture :=
  if future.finished then none
  else (future.finality.poll notifications).map fun (report, finality) ↦ { future with
    finality
    calls := future.calls ++ (report.map fun n ↦ .onBlockFinalized n.hash n.header).toList }

/-- A branch that tells a status sink. -/
def onSink (call : NetworkCall) (future : NetworkFuture) : Option NetworkFuture :=
  if future.AtSelect then some { future with calls := future.calls ++ [call] } else none

end NetworkFuture

/-- The client and the future that listens to it. -/
structure NetworkedClient (σ : Type) where
  client : ClientState σ
  shutDown : Bool
  network : NetworkFuture

inductive NetworkEvent where
  | client (event : FinalityEvent)
  | shutDown
  | importBranch
  | finalityBranch
  | statusBranch
  | stateBranch

namespace NetworkedClient

variable {σ : Type}

/-- The future subscribes to a client. -/
def start (client : ClientState σ) (announceImportedBlocks : Bool) : NetworkedClient σ where
  client := { client with notifies := { client.notifies with
    importChannels := client.notifies.importChannels ++ [.opened]
    finalityChannels := client.notifies.finalityChannels ++ [.opened] } }
  shutDown := false
  network := .start announceImportedBlocks

def imports (i : ℕ) (s : NetworkedClient σ) : List BlockImportNotification :=
  (s.client.notifies.importChannels[i]?.map Channel.received).getD []

def finality (j : ℕ) (s : NetworkedClient σ) : List FinalityNotification :=
  (s.client.notifies.finalityChannels[j]?.map Channel.received).getD []

/-- One step of the client or of the future, which has the channels `i` and
`j`. -/
def next (store : Store σ) (i j : ℕ) (s : NetworkedClient σ) :
    NetworkEvent → Option (NetworkedClient σ)
  | .client event =>
      if s.shutDown then none
      else (event.next store s.client).map fun client ↦ { s with client }
  | .shutDown => some { s with shutDown := true }
  | .importBranch =>
      (s.network.onImport (s.imports i) s.shutDown).map fun network ↦ { s with network }
  | .finalityBranch =>
      (s.network.onFinality (s.finality j)).map fun network ↦ { s with network }
  | .statusBranch => (s.network.onSink .sendStatus).map fun network ↦ { s with network }
  | .stateBranch => (s.network.onSink .sendNetworkState).map fun network ↦ { s with network }

end NetworkedClient

/-! ## What one step tells -/

namespace NetworkFuture

variable {future future' : NetworkFuture} {imports : List BlockImportNotification}
  {notifications : List FinalityNotification} {shutDown : Bool} {call : NetworkCall}

/-- The finality notifications taken so far, merged, are what the network was
told. -/
def ToldFinality (notifications : List FinalityNotification) (future : NetworkFuture) : Prop :=
  future.finality.Follows notifications (future.calls.filterMap NetworkCall.finalized?)

/-- The network was told of the imports taken so far, one by one. -/
structure ToldImports (imports : List BlockImportNotification) (shutDown : Bool)
    (future : NetworkFuture) : Prop where
  bound : future.importsTaken ≤ imports.length
  told : future.calls.filter NetworkCall.isImport =
    (imports.take future.importsTaken).flatMap (importCalls future.announceImportedBlocks)
  ended : future.finished = true → shutDown = true ∧ future.importsTaken = imports.length

theorem filterMap_finalized?_importCalls (announceImportedBlocks : Bool)
    (n : BlockImportNotification) :
    (importCalls announceImportedBlocks n).filterMap NetworkCall.finalized? = [] := by
  unfold importCalls
  cases announceImportedBlocks <;> cases n.isNewBest <;> rfl

theorem filter_isImport_importCalls (announceImportedBlocks : Bool)
    (n : BlockImportNotification) :
    (importCalls announceImportedBlocks n).filter NetworkCall.isImport =
      importCalls announceImportedBlocks n := by
  unfold importCalls
  cases announceImportedBlocks <;> cases n.isNewBest <;> rfl

theorem onImport_cases (h : future.onImport imports shutDown = some future') :
    future.AtSelect ∧
      ((∃ n, imports[future.importsTaken]? = some n ∧ future' = { future with
          importsTaken := future.importsTaken + 1
          calls := future.calls ++ importCalls future.announceImportedBlocks n }) ∨
        imports.length ≤ future.importsTaken ∧ shutDown = true ∧
          future' = { future with finished := true }) := by
  unfold onImport at h
  split at h
  · rename_i hselect
    refine ⟨hselect, ?_⟩
    rcases hn : imports[future.importsTaken]? with _ | n
    · simp only [hn, Option.ite_none_right_eq_some, Option.some.injEq] at h
      exact Or.inr ⟨List.getElem?_eq_none_iff.mp hn, h.1, h.2.symm⟩
    · simp only [hn, Option.some.injEq] at h
      exact Or.inl ⟨n, rfl, h.symm⟩
  · simp at h

theorem onFinality_cases (h : future.onFinality notifications = some future') :
    future.finished = false ∧ ∃ report finality,
      future.finality.poll notifications = some (report, finality) ∧
      future' = { future with
        finality
        calls := future.calls ++
          (report.map fun n ↦ NetworkCall.onBlockFinalized n.hash n.header).toList } := by
  unfold onFinality at h
  split at h
  · simp at h
  · rename_i hfinished
    obtain ⟨⟨report, finality⟩, hpoll, rfl⟩ := Option.map_eq_some_iff.mp h
    exact ⟨by simpa using hfinished, report, finality, hpoll, rfl⟩

theorem onSink_cases (h : future.onSink call = some future') :
    future.AtSelect ∧ future' = { future with calls := future.calls ++ [call] } := by
  unfold onSink at h
  split at h
  · rename_i hselect
    exact ⟨hselect, (Option.some.inj h).symm⟩
  · simp at h

/-! The finality notifications. -/

theorem ToldFinality.onImport (h : future.ToldFinality notifications)
    (hstep : future.onImport imports shutDown = some future') :
    future'.ToldFinality notifications := by
  obtain ⟨-, ⟨n, -, rfl⟩ | ⟨-, -, rfl⟩⟩ := onImport_cases hstep
  · simpa [ToldFinality, filterMap_finalized?_importCalls] using h
  · exact h

theorem ToldFinality.onFinality (h : future.ToldFinality notifications)
    (hstep : future.onFinality notifications = some future') :
    future'.ToldFinality notifications := by
  obtain ⟨-, report, finality, hpoll, rfl⟩ := onFinality_cases hstep
  have hreport : (report.map fun n ↦ NetworkCall.onBlockFinalized n.hash n.header).toList.filterMap
      NetworkCall.finalized? = report.toList := by
    cases report <;> rfl
  rw [ToldFinality, List.filterMap_append, hreport]
  exact h.poll hpoll

theorem ToldFinality.onSink (hcall : call.finalized? = none)
    (h : future.ToldFinality notifications) (hstep : future.onSink call = some future') :
    future'.ToldFinality notifications := by
  obtain ⟨-, rfl⟩ := onSink_cases hstep
  simpa [ToldFinality, hcall] using h

/-! The imports. -/

theorem ToldImports.grow {imports' : List BlockImportNotification}
    (h : future.ToldImports imports false) (hgrown : imports <+: imports') :
    future.ToldImports imports' false := by
  obtain ⟨more, rfl⟩ := hgrown
  refine ⟨?_, ?_, ?_⟩
  · rw [List.length_append]
    exact Nat.le_add_right_of_le h.bound
  · rw [List.take_append_of_le_length h.bound]
    exact h.told
  · intro hfinished
    exact absurd (h.ended hfinished).1 (by decide)

theorem ToldImports.onImport (h : future.ToldImports imports shutDown)
    (hstep : future.onImport imports shutDown = some future') :
    future'.ToldImports imports shutDown := by
  obtain ⟨hselect, ⟨n, hn, rfl⟩ | ⟨hend, hdown, rfl⟩⟩ := onImport_cases hstep
  · refine ⟨(List.getElem?_eq_some_iff.mp hn).1, ?_, ?_⟩
    · rw [List.filter_append, h.told, filter_isImport_importCalls, List.take_add_one, hn,
        List.flatMap_append]
      simp
    · intro hfinished
      exact absurd hfinished (by simp [hselect.1])
  · exact ⟨h.bound, h.told, fun _ ↦ ⟨hdown, Nat.le_antisymm h.bound hend⟩⟩

theorem ToldImports.onFinality (h : future.ToldImports imports shutDown)
    (hstep : future.onFinality notifications = some future') :
    future'.ToldImports imports shutDown := by
  obtain ⟨-, report, finality, -, rfl⟩ := onFinality_cases hstep
  refine ⟨h.bound, ?_, h.ended⟩
  rw [List.filter_append, h.told]
  cases report <;> simp [NetworkCall.isImport]

theorem ToldImports.onSink (hcall : call.isImport = false) (h : future.ToldImports imports shutDown)
    (hstep : future.onSink call = some future') : future'.ToldImports imports shutDown := by
  obtain ⟨-, rfl⟩ := onSink_cases hstep
  refine ⟨h.bound, ?_, h.ended⟩
  rw [List.filter_append, h.told]
  simp [hcall]

end NetworkFuture

/-! ## What the streams carry -/

section Streams

variable {σ : Type} {store : Store σ} {codec : Codec} {parent : Hash → Option Hash}
  {finalized bestOf : σ → Hash} {i j : ℕ}

theorem lockImportAndRun_finality_grows {ρ ε : Type} {fromError : Error → ε}
    {f : ClientImportOperation → Except (Panic ⊕ ε) (ρ × ClientImportOperation)}
    {reads : NotifyReads} {s : ClientState σ} {channel : Channel FinalityNotification}
    (hj : s.notifies.finalityChannels[j]? = some channel) :
    ∃ channel', (lockImportAndRun store fromError f reads s).2.notifies.finalityChannels[j]? =
      some channel' ∧ channel.received <+: channel'.received := by
  rcases hrun : lockImportAndRun store fromError f reads s with ⟨result, t⟩
  rcases lockImportAndRun_cases hrun with ⟨-, -, rfl⟩ |
    ⟨r, operation, backend, sends, finalityChannels, notified, -, -, hreceived, houtcome⟩
  · exact ⟨channel, hj, List.prefix_rfl⟩
  have hchannels : t.notifies.finalityChannels = finalityChannels := by
    rcases houtcome with ⟨-, -, rfl⟩ | ⟨failure, -, -, rfl⟩ <;> simp
  have hat := congrArg (fun received ↦ received[j]?) hreceived
  simp only [List.getElem?_map, getElem?_deliverAll, hj, Option.map_some,
    Option.map_eq_some_iff] at hat
  obtain ⟨channel', hj', hchannel'⟩ := hat
  obtain ⟨m, hm⟩ := channel.received_deliver (sends.map fun (a, gone) ↦ (a, gone j))
  refine ⟨channel', by rw [hchannels, hj'], ?_⟩
  rw [hchannel', hm]
  exact List.prefix_append _ _

/-- A stream of finality notifications only grows. -/
theorem FinalityEvent.next_finality_grows {s t : ClientState σ} {event : FinalityEvent}
    {channel : Channel FinalityNotification}
    (hj : s.notifies.finalityChannels[j]? = some channel) (hnext : next store s event = some t) :
    ∃ channel', t.notifies.finalityChannels[j]? = some channel' ∧
      channel.received <+: channel'.received := by
  cases event with
  | subscribe =>
      obtain rfl := Option.some.inj hnext
      have hbound : j < s.notifies.finalityChannels.length := (List.getElem?_eq_some_iff.mp hj).1
      exact ⟨channel, (List.getElem?_append_left hbound).trans hj, List.prefix_rfl⟩
  | leave gone =>
      obtain rfl := Option.some.inj hnext
      exact ⟨channel.close (gone j), by simp [closeAll, hj], List.prefix_rfl⟩
  | finalizeBlock client blockHash id justification notify reads =>
      obtain rfl := Option.some.inj hnext
      exact lockImportAndRun_finality_grows hj
  | importBlock locked client importingBlock params newCache reads =>
      obtain rfl := Option.some.inj hnext
      unfold LockedClient.importBlock
      split
      · exact ⟨channel, hj, List.prefix_rfl⟩
      · exact ⟨channel, hj, List.prefix_rfl⟩
      · exact lockImportAndRun_finality_grows hj

/-! ## Finality -/

namespace NetworkedClient

def FollowsFinality (parent : Hash → Option Hash) (finalized : σ → Hash) (j : ℕ)
    (s : NetworkedClient σ) : Prop :=
  s.client.Follows parent finalized ∧ ∃ channel,
    s.client.notifies.finalityChannels[j]? = some channel ∧
      s.network.ToldFinality channel.received

theorem finality_eq {s : NetworkedClient σ} {channel : Channel FinalityNotification}
    (hj : s.client.notifies.finalityChannels[j]? = some channel) :
    s.finality j = channel.received := by
  rw [finality, hj]
  rfl

theorem next_followsFinality {s t : NetworkedClient σ} {event : NetworkEvent}
    (hstore : store.FinalizesSequentially codec parent finalized)
    (hsees : ∀ e, event = .client e → e.Sees codec finalized s.client)
    (h : s.FollowsFinality parent finalized j) (hnext : next store i j s event = some t) :
    t.FollowsFinality parent finalized j := by
  obtain ⟨hfollows, channel, hj, htold⟩ := h
  cases event with
  | client event =>
      simp only [next, Option.ite_none_left_eq_some, Option.map_eq_some_iff] at hnext
      obtain ⟨-, client, hclient, rfl⟩ := hnext
      obtain ⟨channel', hj', hgrows⟩ := FinalityEvent.next_finality_grows hj hclient
      exact ⟨FinalityEvent.next_follows hstore (hsees event rfl) hfollows hclient, channel', hj',
        htold.grow hgrows⟩
  | shutDown =>
      obtain rfl := Option.some.inj hnext
      exact ⟨hfollows, channel, hj, htold⟩
  | importBranch =>
      obtain ⟨network, hnetwork, rfl⟩ := Option.map_eq_some_iff.mp hnext
      exact ⟨hfollows, channel, hj, htold.onImport hnetwork⟩
  | finalityBranch =>
      obtain ⟨network, hnetwork, rfl⟩ := Option.map_eq_some_iff.mp hnext
      rw [finality_eq hj] at hnetwork
      exact ⟨hfollows, channel, hj, htold.onFinality hnetwork⟩
  | statusBranch =>
      obtain ⟨network, hnetwork, rfl⟩ := Option.map_eq_some_iff.mp hnext
      exact ⟨hfollows, channel, hj, htold.onSink rfl hnetwork⟩
  | stateBranch =>
      obtain ⟨network, hnetwork, rfl⟩ := Option.map_eq_some_iff.mp hnext
      exact ⟨hfollows, channel, hj, htold.onSink rfl hnetwork⟩

theorem start_followsFinality {client : ClientState σ} (announce : Bool)
    (hfollows : client.Follows parent finalized) :
    (start client announce).FollowsFinality parent finalized
      client.notifies.finalityChannels.length := by
  refine ⟨?_, .opened, by simp [start], Merger.follows_start⟩
  intro channel hchannel
  rcases List.mem_append.mp hchannel with hchannel | hchannel
  · exact hfollows channel hchannel
  · rw [List.mem_singleton.mp hchannel]
    exact descendsTo_nil

/-- In every run of the client and the future the network is told of finalized
blocks that descend from each other, down to the last finalized block, each of
them once.  While the future waits, the last one it told is the last one it
was notified of. -/
theorem network_told_of_finality {client : ClientState σ} {announce : Bool}
    {t : NetworkedClient σ} (hacyclic : Acyclic parent)
    (hstore : store.FinalizesSequentially codec parent finalized)
    (hfollows : client.Follows parent finalized)
    (hj : j = client.notifies.finalityChannels.length)
    (hrun : Transition.Reaches (next store i j)
      (fun s event ↦ ∀ e, event = .client e → e.Sees codec finalized s.client)
      (start client announce) t) :
    ((t.network.calls.filterMap NetworkCall.finalized?).Sublist (t.finality j) ∧
      DescendsTo parent ((t.network.calls.filterMap NetworkCall.finalized?).map
        FinalityNotification.hash) (finalized t.client.backend) ∧
      ((t.network.calls.filterMap NetworkCall.finalized?).map FinalityNotification.hash).Nodup) ∧
    (t.network.finished = false → next store i j t .finalityBranch = none →
      (t.network.calls.filterMap NetworkCall.finalized?).getLast? = (t.finality j).getLast?) := by
  subst hj
  obtain ⟨htfollows, channel, hchannel, htold⟩ :=
    hrun.invariant (start_followsFinality announce hfollows)
      fun _ _ _ hs hsees hnext ↦ next_followsFinality hstore hsees hs hnext
  rw [finality_eq hchannel]
  have hsub : (t.network.calls.filterMap NetworkCall.finalized?).Sublist channel.received :=
    (List.sublist_append_left _ _).trans (htold.sublist.trans (List.take_sublist _ _))
  have hdescends := (htfollows channel (List.mem_of_getElem? hchannel)).sublist
    (hsub.map FinalityNotification.hash)
  refine ⟨⟨hsub, hdescends, hdescends.nodup hacyclic⟩, ?_⟩
  intro hrunning hwaits
  have hpoll : t.network.finality.poll channel.received = none := by
    simpa [next, NetworkFuture.onFinality, hrunning, finality_eq hchannel] using hwaits
  exact (htold.waits hpoll).2

/-! ## The best block -/

variable {root : Hash} {chain : List Hash}

theorem imports_eq {s : NetworkedClient σ} {channel : Channel BlockImportNotification}
    (hi : s.client.notifies.importChannels[i]? = some channel) :
    s.imports i = channel.received := by
  rw [imports, hi]
  rfl

/-- The stream of imports leads to the best block, and the network is told
along it. -/
structure FollowsImports (parent : Hash → Option Hash) (root : Hash) (bestOf : σ → Hash) (i : ℕ)
    (announce : Bool) (chain : List Hash) (s : NetworkedClient σ) : Prop where
  announces : s.network.announceImportedBlocks = announce
  shows : s.client.Shows parent root bestOf i [] chain
  told : s.network.ToldImports (s.imports i) s.shutDown

theorem next_followsImports {announce : Bool} {s t : NetworkedClient σ} {event : NetworkEvent}
    (hroot : parent root = none) (hstore : store.TracksBest codec bestOf)
    (hin : ∀ e, event = .client e → e.InStep codec parent bestOf i s.client)
    (h : s.FollowsImports parent root bestOf i announce chain)
    (hnext : next store i j s event = some t) :
    t.FollowsImports parent root bestOf i announce chain := by
  obtain ⟨hannounces, hshows, htold⟩ := h
  cases event with
  | client event =>
      simp only [next, Option.ite_none_left_eq_some, Option.map_eq_some_iff] at hnext
      obtain ⟨hup, client, hclient, rfl⟩ := hnext
      have hup' : s.shutDown = false := by simpa using hup
      obtain ⟨channel, news, hi, hopen, hreceived, hchain⟩ := hshows
      have hnow : s.client.Shows parent root bestOf i channel.received
          (news.foldl BlockImportNotification.apply chain) :=
        ⟨channel, [], hi, hopen, (List.append_nil _).symm, hchain⟩
      obtain ⟨channel', more, hi', hopen', hreceived', hchain'⟩ :=
        FinalityEvent.next_shows hroot hstore (hin event rfl) hnow hclient
      refine ⟨hannounces, ⟨channel', news ++ more, hi', hopen', ?_, ?_⟩, ?_⟩
      · rw [hreceived', hreceived, List.nil_append, List.nil_append]
      · rw [List.foldl_append]
        exact hchain'
      · rw [imports_eq hi, hup'] at htold
        rw [imports_eq hi', hup', hreceived']
        exact htold.grow (List.prefix_append _ _)
  | shutDown =>
      obtain rfl := Option.some.inj hnext
      exact ⟨hannounces, hshows, htold.bound, htold.told, fun h ↦ ⟨rfl, (htold.ended h).2⟩⟩
  | importBranch =>
      obtain ⟨network, hnetwork, rfl⟩ := Option.map_eq_some_iff.mp hnext
      refine ⟨?_, hshows, htold.onImport hnetwork⟩
      obtain ⟨-, ⟨n, -, rfl⟩ | ⟨-, -, rfl⟩⟩ := NetworkFuture.onImport_cases hnetwork
      · exact hannounces
      · exact hannounces
  | finalityBranch =>
      obtain ⟨network, hnetwork, rfl⟩ := Option.map_eq_some_iff.mp hnext
      refine ⟨?_, hshows, htold.onFinality hnetwork⟩
      obtain ⟨-, report, finality, -, rfl⟩ := NetworkFuture.onFinality_cases hnetwork
      exact hannounces
  | statusBranch =>
      obtain ⟨network, hnetwork, rfl⟩ := Option.map_eq_some_iff.mp hnext
      refine ⟨?_, hshows, htold.onSink rfl hnetwork⟩
      obtain ⟨-, rfl⟩ := NetworkFuture.onSink_cases hnetwork
      exact hannounces
  | stateBranch =>
      obtain ⟨network, hnetwork, rfl⟩ := Option.map_eq_some_iff.mp hnext
      refine ⟨?_, hshows, htold.onSink rfl hnetwork⟩
      obtain ⟨-, rfl⟩ := NetworkFuture.onSink_cases hnetwork
      exact hannounces

theorem start_followsImports {client : ClientState σ} (announce : Bool)
    (hchain : IsChainTo parent root (bestOf client.backend) chain) :
    (start client announce).FollowsImports parent root bestOf client.notifies.importChannels.length
      announce chain := by
  have hi : (start client announce).client.notifies.importChannels[
      client.notifies.importChannels.length]? = some .opened := by
    simp [start]
  refine ⟨rfl, ⟨.opened, [], hi, by decide, rfl, hchain⟩, ?_⟩
  rw [imports_eq hi]
  exact ⟨Nat.le_refl _, rfl, fun h ↦ absurd h (by simp [start, NetworkFuture.start])⟩

/-- The last block that was told as the best one is where the chain ends. -/
theorem getLastD_newBest? (announce : Bool) (news : List BlockImportNotification) :
    ((news.flatMap (NetworkFuture.importCalls announce)).filterMap NetworkCall.newBest?).getLastD
      (tip root chain) = tip root (news.foldl BlockImportNotification.apply chain) := by
  induction news generalizing chain with
  | nil => rfl
  | cons n news ih =>
      have hcalls : (NetworkFuture.importCalls announce n).filterMap NetworkCall.newBest? =
          if n.isNewBest then [n.hash] else [] := by
        unfold NetworkFuture.importCalls
        cases announce <;> cases n.isNewBest <;> rfl
      rw [List.flatMap_cons, List.filterMap_append, hcalls, List.foldl_cons, ← ih,
        BlockImportNotification.tip_apply]
      split
      · rw [List.singleton_append, List.getLastD_cons]
      · rfl

/-- In every run in which each change of the best block is notified, the
network is told of the imports one by one, and once the future has taken all
notifications the last best block it told is the best block.  When it ends it
has taken them all. -/
theorem network_told_of_best {client : ClientState σ} {announce : Bool} {t : NetworkedClient σ}
    (hroot : parent root = none) (hstore : store.TracksBest codec bestOf)
    (hchain : IsChainTo parent root (bestOf client.backend) chain)
    (hi : i = client.notifies.importChannels.length)
    (hrun : Transition.Reaches (next store i j)
      (fun s event ↦ ∀ e, event = .client e → e.InStep codec parent bestOf i s.client)
      (start client announce) t) :
    t.network.calls.filter NetworkCall.isImport =
      ((t.imports i).take t.network.importsTaken).flatMap (NetworkFuture.importCalls announce) ∧
    (t.network.importsTaken = (t.imports i).length →
      (t.network.calls.filterMap NetworkCall.newBest?).getLastD (bestOf client.backend) =
        bestOf t.client.backend) ∧
    (t.network.finished = true → t.network.importsTaken = (t.imports i).length) := by
  subst hi
  obtain ⟨hannounces, ⟨channel, news, hchannel, -, hreceived, htchain⟩, htold⟩ :=
    hrun.invariant (start_followsImports announce hchain)
      fun _ _ _ hs hin hnext ↦ next_followsImports hroot hstore hin hs hnext
  obtain rfl : news = channel.received := by simpa using hreceived.symm
  have himports := htold.told
  rw [hannounces] at himports
  refine ⟨himports, ?_, fun hfinished ↦ (htold.ended hfinished).2⟩
  intro hall
  have hbests : t.network.calls.filterMap NetworkCall.newBest? =
      (t.network.calls.filter NetworkCall.isImport).filterMap NetworkCall.newBest? := by
    rw [List.filterMap_filter]
    refine List.filterMap_congr fun call _ ↦ ?_
    cases call <;> rfl
  rw [hbests, himports, hall, List.take_length, imports_eq hchannel, ← hchain.tip,
    getLastD_newBest?, htchain.tip]

end NetworkedClient

end Streams

namespace Sample

/-- Two blocks have become final, and the network future listens. -/
def twoFinal : ClientState Hash :=
  ⟨[2, 6], ⟨[], [.opened], [⟨true, false, [⟨[1, 5], firstHeader⟩, ⟨[2, 6], firstHeader⟩]⟩]⟩⟩

/-- Both notifications are taken before the network is told. -/
def merging (taken : ℕ) (last : Option FinalityNotification) (calls : List NetworkCall) :
    NetworkedClient Hash := ⟨twoFinal, false, ⟨true, 0, ⟨taken, last⟩, calls, false⟩⟩

theorem merging_reached : Transition.Reaches (NetworkedClient.next finalityStore 0 0)
    (fun s event ↦ ∀ e, event = .client e → e.Sees codec (fun last ↦ last) s.client)
    (.start genesisFinal true) (merging 2 none [.onBlockFinalized [2, 6] firstHeader]) := by
  have hsees : locked.Sees codec (fun last ↦ last) genesisFinal.backend :=
    ⟨rfl, fun _ h ↦ (Except.ok.inj h).symm⟩
  refine .head (b := merging 0 none []) ⟨.client (.finalizeBlock locked blockHash (.hash [2, 6])
    none true headerReads), by rintro e ⟨⟩; exact hsees, rfl⟩ ?_
  refine .head (b := merging 1 (some ⟨[1, 5], firstHeader⟩) []) ⟨.finalityBranch, by simp, rfl⟩ ?_
  refine .head (b := merging 2 (some ⟨[2, 6], firstHeader⟩) []) ⟨.finalityBranch, by simp, rfl⟩ ?_
  exact .single ⟨.finalityBranch, by simp, rfl⟩

/-- The branch of three blocks has overtaken the block beside it. -/
def reorganised : ClientState Hash :=
  ⟨[3, 7], ⟨[([3, 7], ⟨[], []⟩)], [⟨true, false, [⟨[3, 7], .networkInitialSync, syncedBlock.post,
    true, some ⟨[[1, 9]], [0, 0], [[1, 5], [2, 6]]⟩⟩]⟩], [.opened]⟩⟩

def announcing (taken : ℕ) (calls : List NetworkCall) : NetworkedClient Hash :=
  ⟨reorganised, false, ⟨true, taken, ⟨0, none⟩, calls, false⟩⟩

/-- The block beside the others is the best one, and nobody listens. -/
def sideAlone : ClientState Hash := ⟨[1, 9], ⟨[], [], []⟩⟩

theorem announcing_reached : Transition.Reaches (NetworkedClient.next bestStore 0 0)
    (fun s event ↦ ∀ e, event = .client e →
      e.InStep codec sideTree (fun best ↦ best) 0 s.client)
    (.start sideAlone true)
    (announcing 1 [.announceBlock [3, 7], .newBestBlockImported [3, 7] 3]) := by
  refine .head (b := announcing 0 []) ⟨.client (.importBlock sideLocked threeBlocks none
    syncedBlock [] headerReads), by rintro e ⟨⟩; exact syncedBlock_inStep, rfl⟩ ?_
  exact .single ⟨.importBranch, by simp, rfl⟩

end Sample

namespace NetworkedClient

theorem network_told_of_finality_merged :
    Sample.twoFinal.notifies.finalityChannels.map FinalityNotification.hashes =
      [[[1, 5], [2, 6]]] ∧
    DescendsTo Sample.parent [[2, 6]] Sample.twoFinal.backend := by
  have hfollows : Sample.genesisFinal.Follows Sample.parent fun last ↦ last := by
    simp [ClientState.Follows, Sample.genesisFinal]
  obtain ⟨⟨-, hdescends, -⟩, -⟩ := network_told_of_finality Sample.acyclic_parent
    Sample.finalityStore_finalizesSequentially hfollows rfl Sample.merging_reached
  exact ⟨rfl, hdescends⟩

theorem network_told_of_best_reorg :
    Sample.sideAlone.backend = [1, 9] ∧ [[3, 7]].getLastD [1, 9] = Sample.reorganised.backend := by
  have hroot : Sample.sideTree [0, 0] = none := rfl
  have hchain : IsChainTo Sample.sideTree [0, 0] Sample.sideAlone.backend [[1, 9]] :=
    ⟨by decide, rfl⟩
  have hi : 0 = Sample.sideAlone.notifies.importChannels.length := rfl
  obtain ⟨-, hbest, -⟩ := network_told_of_best hroot Sample.bestStore_tracksBest hchain hi
    Sample.announcing_reached
  exact ⟨rfl, hbest rfl⟩

end NetworkedClient

end SubArchive
