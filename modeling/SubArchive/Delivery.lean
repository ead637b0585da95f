import SubArchive.AppendOnly
import SubArchive.CrashEquivalence

/-!
# The topic of blocks

A restart takes up the largest stored height again, which is the only one that
may be stored and not published.  So the topic of blocks has no hole either:
with a chain that only grows and with no failure but crashes its heights start
at the genesis block and go up by nothing or one from record to record.
-/

namespace SubArchive

def KafkaRecord.block? : KafkaRecord → Option BlockPayload
  | .block payload => some payload
  | .metadata _ => none

def KafkaRecord.metadata? : KafkaRecord → Option MetadataPayload
  | .metadata payload => some payload
  | .block _ => none

/-- The topic of blocks. -/
def blockTopic (published : List KafkaRecord) : List BlockPayload :=
  published.filterMap KafkaRecord.block?

def metadataTopic (published : List KafkaRecord) : List MetadataPayload :=
  published.filterMap KafkaRecord.metadata?

@[simp] theorem blockTopic_metadata (published : List KafkaRecord) (payload : MetadataPayload) :
    blockTopic (published ++ [.metadata payload]) = blockTopic published := by
  simp [blockTopic, KafkaRecord.block?]

@[simp] theorem blockTopic_block (published : List KafkaRecord) (payload : BlockPayload) :
    blockTopic (published ++ [.block payload]) = blockTopic published ++ [payload] := by
  simp [blockTopic, KafkaRecord.block?]

@[simp] theorem metadataTopic_metadata (published : List KafkaRecord)
    (payload : MetadataPayload) :
    metadataTopic (published ++ [.metadata payload]) = metadataTopic published ++ [payload] := by
  simp [metadataTopic, KafkaRecord.metadata?]

@[simp] theorem metadataTopic_block (published : List KafkaRecord) (payload : BlockPayload) :
    metadataTopic (published ++ [.block payload]) = metadataTopic published := by
  simp [metadataTopic, KafkaRecord.metadata?]

namespace Notifier

variable {a b : Notifier} {msg : ArchiveSendMsg}
  {metadataAt : BlockNumber → Except Panic (Except Error Bytes)}

def topic (a : Notifier) : List BlockPayload := blockTopic a.published

theorem topic_of_sendBlock (htask : a.task = .sendBlock msg) (hstep : Step metadataAt a .ok b) :
    b.topic = a.topic ++ [msg.payload] ∧ b.task = .waiting ∧ b.db = a.db := by
  cases hstep <;> simp_all [topic]

theorem topic_of_other (htask : ∀ msg, a.task ≠ .sendBlock msg)
    (hstep : Step metadataAt a .ok b) : b.topic = a.topic := by
  cases hstep <;> simp_all [topic]

theorem Step.not_panicked {reply : Reply} (hstep : Step metadataAt a reply b) :
    ∀ message, a.task ≠ .panicked message := by
  cases hstep <;> simp_all

end Notifier

/-! ## The topic of metadata -/

namespace Notifier

variable {a b : Notifier} {reply : Reply}
  {metadataAt : BlockNumber → Except Panic (Except Error Bytes)}

def publishedVersions (a : Notifier) : List ℕ :=
  (metadataTopic a.published).map MetadataPayload.specVersion

/-- The row a record of the topic was sent for. -/
def Records (row : MetadataModel) (payload : MetadataPayload) : Prop :=
  row.specVersion = payload.specVersion ∧ row.blockHash = payload.blockHash ∧
    row.metadata = payload.metadata

structure SendsOnce (a : Notifier) : Prop where
  new : a.InsertsNew
  once : a.publishedVersions.Nodup
  rows : ∀ payload ∈ metadataTopic a.published, ∃ row ∈ a.db.metadatas.rows, Records row payload
  unsent : ∀ msg metadata, a.task = .sendMetadata msg metadata →
    metadataModel msg metadata ∈ a.db.metadatas.rows ∧
      msg.model.specVersion ∉ a.publishedVersions

theorem SendsOnce.rows_step (h : a.SendsOnce) (hstep : Step metadataAt a reply b) :
    ∀ payload ∈ metadataTopic a.published, ∃ row ∈ b.db.metadatas.rows, Records row payload := by
  intro payload hpayload
  obtain ⟨row, hrow, hrecords⟩ := h.rows payload hpayload
  exact ⟨row, kept_metadata h.new hstep row hrow, hrecords⟩

theorem SendsOnce.version_mem (h : a.SendsOnce) :
    ∀ v ∈ a.publishedVersions, v ∈ a.db.metadatas.keys := by
  intro v hv
  obtain ⟨payload, hpayload, rfl⟩ := List.mem_map.mp hv
  obtain ⟨row, hrow, hversion, -⟩ := h.rows payload hpayload
  rw [← hversion]
  exact KeyedTable.key_mem_keys hrow

theorem SendsOnce.publish {msg : ArchiveSendMsg} {metadata : Bytes} (h : a.SendsOnce)
    (htask : a.task = .sendMetadata msg metadata) :
    (a.publishedVersions ++ [msg.model.specVersion]).Nodup ∧
      ∀ payload ∈ metadataTopic a.published ++ [metadataPayload msg metadata],
        ∃ row ∈ a.db.metadatas.rows, Records row payload := by
  obtain ⟨hrow, hunsent⟩ := h.unsent msg metadata htask
  refine ⟨?_, ?_⟩
  · exact h.once.append (List.nodup_singleton _) (by simpa using hunsent)
  · refine List.forall_mem_append.mpr ⟨h.rows, ?_⟩
    intro payload hpayload
    obtain rfl := List.mem_singleton.mp hpayload
    exact ⟨_, hrow, rfl, rfl, rfl⟩

theorem sendsOnce_step (h : a.SendsOnce) (hstep : Step metadataAt a reply b) : b.SendsOnce := by
  have hnew := insertsNew_step h.new hstep
  have hrows := h.rows_step hstep
  cases hstep with
  | metadataSent htask | metadataSendLost _ htask =>
      obtain ⟨honce, hrows'⟩ := h.publish htask
      refine ⟨hnew, ?_, ?_, by simp⟩
      · simpa [publishedVersions, metadataPayload] using honce
      · simpa using hrows'
  | @metadataInserted msg metadata db htask hinsert =>
      refine ⟨hnew, h.once, hrows, ?_⟩
      intro msg' metadata' htask'
      cases htask'
      refine ⟨?_, ?_⟩
      · rw [(Database.insertMetadata_eq_some.mp hinsert).2.1, KeyedTable.mem_rows_upsert]
        exact Or.inl rfl
      · have hmissing := h.new
        simp only [InsertsNew, htask] at hmissing
        exact fun hv ↦ hmissing (h.version_mem _ hv)
  | blockSent htask | blockSendLost _ htask =>
      refine ⟨hnew, ?_, ?_, by simp⟩
      · simpa [publishedVersions] using h.once
      · simpa using h.rows
  | _ => exact ⟨hnew, h.once, hrows, by simp⟩

/-- A version whose metadata is stored and neither published nor about to be. -/
def Unsent (v : ℕ) (a : Notifier) : Prop :=
  v ∈ a.db.metadatas.keys ∧ v ∉ a.publishedVersions ∧
    ∀ msg metadata, a.task = .sendMetadata msg metadata → msg.model.specVersion ≠ v

theorem unsent_step {v : ℕ} (hnew : a.InsertsNew) (h : a.Unsent v)
    (hstep : Step metadataAt a reply b) : b.Unsent v := by
  obtain ⟨hstored, hunpublished, hother⟩ := h
  obtain ⟨row, hrow, hversion⟩ := KeyedTable.mem_keys.mp hstored
  have hstored' : v ∈ b.db.metadatas.keys :=
    KeyedTable.mem_keys.mpr ⟨row, kept_metadata hnew hstep row hrow, hversion⟩
  cases hstep with
  | @metadataSent msg metadata htask | @metadataSendLost msg metadata _ htask =>
      refine ⟨hstored', ?_, by simp⟩
      have hne : v ≠ msg.model.specVersion := (hother msg metadata htask).symm
      simpa [publishedVersions, metadataPayload, hne] using hunpublished
  | @metadataInserted msg metadata db htask hinsert =>
      refine ⟨hstored', hunpublished, ?_⟩
      intro msg' metadata' htask' hv
      cases htask'
      simp only [InsertsNew, htask] at hnew
      exact hnew (hv ▸ hstored)
  | blockSent htask | blockSendLost _ htask =>
      exact ⟨hstored', by simpa [publishedVersions] using hunpublished, by simp⟩
  | _ => exact ⟨hstored', hunpublished, by simp⟩

end Notifier

/-! ## Heights without a hole -/

/-- From one record to the next the height stays or goes up by one. -/
def Adjacent (a b : ℕ) : Prop := b = a ∨ b = a + 1

/-- What follows a gapless list that covers all below `n`. -/
theorem isChain_adjacent_concat {heights : List ℕ} {n : ℕ}
    (hchain : heights.IsChain Adjacent) (hle : ∀ h ∈ heights, h ≤ n)
    (hbelow : ∀ m < n, m ∈ heights) : (heights ++ [n]).IsChain Adjacent := by
  refine List.isChain_append.mpr ⟨hchain, List.isChain_singleton n, ?_⟩
  intro last hlast next hnext
  obtain rfl : n = next := by simpa using hnext
  have hlast' : last ∈ heights := List.mem_of_getLast? hlast
  have hsorted : heights.Pairwise (· ≤ ·) := by
    refine List.isChain_iff_pairwise.mp (hchain.imp ?_)
    rintro a b (rfl | rfl)
    · exact le_rfl
    · exact Nat.le_succ a
  have hmax : ∀ h ∈ heights, h ≤ last := by
    intro h hh
    obtain ⟨before, rfl⟩ : ∃ before, heights = before ++ [last] :=
      ⟨heights.dropLast, (List.dropLast_append_getLast? last hlast).symm⟩
    rcases List.mem_append.mp hh with hh | hh
    · exact (List.pairwise_append.mp hsorted).2.2 h hh last (by simp)
    · exact le_of_eq (by simpa using hh)
  rcases (hle last hlast').eq_or_lt with heq | hlt
  · exact Or.inl heq.symm
  · have hpred : n - 1 ∈ heights := hbelow (n - 1) (by omega)
    have hpred' := hmax _ hpred
    exact Or.inr (by omega)

namespace Pipeline

variable {node : Node} {config : CliConfig} {world : World} {facts : ChainFacts}
  {s t : Pipeline} {e : Event} {n : BlockNumber}

/-- Published or at the archiver. -/
def Handled (heights : List ℕ) (s : Pipeline) (n : BlockNumber) : Prop :=
  n ∈ heights ∨ n ∈ s.ahead

/-- The heights on the topic and what the tables and the queues have to do with
them. -/
structure Delivered (node : Node) (facts : ChainFacts) (heights : List ℕ) (s : Pipeline) :
    Prop where
  topic : s.archiver.topic = heights.map fun n ↦ (facts.message node n).payload
  ordered : heights.IsChain Adjacent
  first : ∀ n ∈ heights.head?, n = 0
  stored : ∀ n ∈ heights, s.archiver.db.Stores n
  /-- only the largest stored height may be owed to the topic -/
  owed : ∀ n, s.archiver.db.Stores n → n ∉ heights → ∀ m, s.archiver.db.Stores m → m ≤ n
  below : (∀ message, s.archiver.task ≠ .panicked message) →
    ∀ q ∈ s.onWay, ∀ m < q, s.Handled heights m
  reported : (∀ message, s.archiver.task ≠ .panicked message) →
    ∀ n ∈ s.reports, s.Handled heights n

variable {heights heights' : List ℕ}

theorem Delivered.below_current {msg : ArchiveSendMsg} (h : s.Delivered node facts heights)
    (hsorted : s.onWay.Pairwise (· ≤ ·)) (hmsg : msg ∈ s.archiver.task.msg?) :
    ∀ m < msg.model.blockNum, m ∈ heights := by
  intro m hm
  rcases h.below (live_of_msg hmsg) _ (mem_onWay_of_msg hmsg) m hm with hpublished | hahead
  · exact hpublished
  · have hle := le_onWay_of_msg hsorted hmsg m (List.mem_append_left _ hahead)
    exact absurd hm (not_lt.mpr hle)

/-! ## What a step does to the topic -/

/-- The archiver publishes the height it is at work on, or nothing. -/
inductive TopicEffect (node : Node) (facts : ChainFacts) (heights : List ℕ) (a b : Notifier) :
    List ℕ → Prop
  | publishes (n : BlockNumber) (hbefore : a.task = .sendBlock (facts.message node n))
      (hafter : b.task = .waiting) (hdb : b.db = a.db)
      (htopic : b.topic = a.topic ++ [(facts.message node n).payload]) :
      TopicEffect node facts heights a b (heights ++ [n])
  | keeps (hbefore : ∀ msg, a.task ≠ .sendBlock msg) (htopic : b.topic = a.topic) :
      TopicEffect node facts heights a b heights

theorem topicEffect_of_step {a b : Notifier}
    {metadataAt : BlockNumber → Except Panic (Except Error Bytes)}
    (hcurrent : ∀ msg ∈ a.task.msg?, ∃ n, msg = facts.message node n)
    (hstep : Notifier.Step metadataAt a .ok b) :
    ∃ heights', TopicEffect node facts heights a b heights' := by
  by_cases htask : ∃ msg, a.task = .sendBlock msg
  · obtain ⟨msg, htask⟩ := htask
    obtain ⟨n, rfl⟩ := hcurrent msg (by simp [htask, ArchiveTask.msg?])
    obtain ⟨htopic, hafter, hdb⟩ := Notifier.topic_of_sendBlock htask hstep
    exact ⟨_, .publishes n htask hafter hdb htopic⟩
  · have htask' : ∀ msg, a.task ≠ .sendBlock msg := by simpa using htask
    exact ⟨_, .keeps htask' (Notifier.topic_of_other htask' hstep)⟩

/-- A handled height stays handled. -/
theorem handled_archives {archiver : Notifier}
    (hfailed : ∀ msg error, s.archiver.task ≠ .failed msg error)
    (hlive : ∀ message, archiver.task ≠ .panicked message)
    (heffect : TopicEffect node facts heights s.archiver archiver heights')
    (hstep : Notifier.Step (node.metadata s.world) s.archiver .ok archiver)
    (h : s.Handled heights n) : Handled heights' { s with archiver } n := by
  cases heffect with
  | publishes m hbefore hafter =>
      have hmsg : s.archiver.task.msg? = some (facts.message node m) := by
        rw [hbefore, ArchiveTask.msg?]
      rw [Handled, ahead_of_msg hmsg, List.mem_cons, ChainFacts.message_blockNum] at h
      rw [Handled, ahead_of_waiting (s := { s with archiver }) hafter, List.mem_append,
        List.mem_singleton]
      tauto
  | keeps hbefore =>
      refine h.imp_right ?_
      intro hn
      cases blockEffect_of_step hstep with
      | keeps msg hmsg hmsg' | stores msg hmsg hmsg' =>
          rw [ahead_of_msg hmsg] at hn
          rw [ahead_of_msg (s := { s with archiver }) hmsg']
          exact hn
      | finishes msg htask => exact absurd htask (hbefore msg)
      | drops msg error htask => exact absurd htask (hfailed msg error)
      | panics message hpanicked => exact absurd hpanicked (hlive message)

theorem delivered_archives {archiver : Notifier} (h : s.Delivered node facts heights)
    (hsorted : s.onWay.Pairwise (· ≤ ·)) (hbelow : s.NeverBelow)
    (hfailed : ∀ msg error, s.archiver.task ≠ .failed msg error)
    (hinserted : ∀ msg, s.archiver.task = .sendBlock msg →
      s.archiver.db.Stores msg.model.blockNum)
    (heffect : TopicEffect node facts heights s.archiver archiver heights')
    (hstep : Notifier.Step (node.metadata s.world) s.archiver .ok archiver) :
    Delivered node facts heights' { s with archiver } := by
  have hlive := hstep.not_panicked
  have hhandled := fun hlive' n hn ↦
    handled_archives (n := n) hfailed hlive' heffect hstep hn
  have hcurrent : ∀ msg ∈ s.archiver.task.msg?, ∀ m < msg.model.blockNum, m ∈ heights :=
    fun msg hmsg ↦ h.below_current hsorted hmsg
  have hle : ∀ msg ∈ s.archiver.task.msg?, ∀ m, s.archiver.db.Stores m → m ≤ msg.model.blockNum :=
    fun msg hmsg ↦ hbelow _ (mem_onWay_of_msg hmsg)
  have hway : (∀ message, archiver.task ≠ .panicked message) →
      ∀ q ∈ onWay { s with archiver }, ∀ m < q, Handled heights' { s with archiver } m :=
    fun hlive' q hq m hm ↦ hhandled hlive' m (h.below hlive q (archives_subset hstep q hq) m hm)
  have hreported : (∀ message, archiver.task ≠ .panicked message) →
      ∀ n ∈ s.reports, Handled heights' { s with archiver } n :=
    fun hlive' n hn ↦ hhandled hlive' n (h.reported hlive n hn)
  cases heffect with
  | publishes n hbefore hafter hdb htopic =>
      have hmsg : facts.message node n ∈ s.archiver.task.msg? := by
        rw [hbefore, ArchiveTask.msg?]
        exact Option.mem_some_self _
      have hall : ∀ m < n, m ∈ heights := hcurrent _ hmsg
      refine ⟨?_, ?_, ?_, ?_, ?_, hway, hreported⟩
      · rw [htopic, h.topic, List.map_append, List.map_singleton]
      · refine isChain_adjacent_concat h.ordered ?_ hall
        intro m hm
        exact hle _ hmsg m (h.stored m hm)
      · rcases hnil : heights with _ | ⟨first, rest⟩
        · intro m hm
          obtain rfl : n = m := by simpa using hm
          rw [hnil] at hall
          exact Nat.eq_zero_of_not_pos fun hpos ↦ List.not_mem_nil (hall 0 hpos)
        · intro m hm
          exact h.first m (by simpa [hnil] using hm)
      · intro m hm
        rw [hdb]
        rcases List.mem_append.mp hm with hm | hm
        · exact h.stored m hm
        · obtain rfl : m = n := by simpa using hm
          exact hinserted _ hbefore
      · intro m hm hnot
        rw [hdb] at hm ⊢
        exact h.owed m hm fun hmem ↦ hnot (List.mem_append_left _ hmem)
  | keeps hbefore htopic =>
      refine ⟨htopic.trans h.topic, h.ordered, h.first, ?_, ?_, hway, hreported⟩
      · intro m hm
        exact hstep.stores (h.stored m hm)
      · intro m hm hnot j hj
        rcases Notifier.stores_of_step hstep hm with hm | ⟨msg, hmsg, rfl⟩
        · rcases Notifier.stores_of_step hstep hj with hj | ⟨msg, hmsg, rfl⟩
          · exact h.owed m hm hnot j hj
          · exact not_lt.mp fun hlt ↦ hnot (hcurrent msg hmsg m hlt)
        · rcases Notifier.stores_of_step hstep hj with hj | ⟨msg', hmsg', rfl⟩
          · exact hle msg hmsg j hj
          · rw [Option.mem_unique hmsg hmsg']

/-- The steps outside the archiver that keep what is at the archiver. -/
theorem Delivered.congr (h : s.Delivered node facts heights) (harchiver : t.archiver = s.archiver)
    (hahead : ∀ n ∈ s.ahead, n ∈ t.ahead)
    (honWay : (∀ message, s.archiver.task ≠ .panicked message) →
      ∀ q ∈ t.onWay, ∀ m < q, s.Handled heights m)
    (hreports : (∀ message, s.archiver.task ≠ .panicked message) →
      ∀ n ∈ t.reports, t.Handled heights n) : t.Delivered node facts heights where
  topic := by rw [harchiver, h.topic]
  ordered := h.ordered
  first := h.first
  stored := by rw [harchiver]; exact h.stored
  owed := by rw [harchiver]; exact h.owed
  below := by
    rw [harchiver]
    intro hlive q hq m hm
    exact (honWay hlive q hq m hm).imp_right (hahead m)
  reported := by rw [harchiver]; exact hreports

/-- Below a height that comes on its way everything is handled. -/
theorem Delivered.below_step (h : s.Delivered node facts heights) (hbacked : s.Backed)
    (he : e ≠ .crash) (hstep : Step node config s e t)
    (hlive : ∀ message, s.archiver.task ≠ .panicked message) :
    ∀ q ∈ t.onWay, ∀ m < q, s.Handled heights m := by
  intro q hq m hm
  rcases mem_onWay_of_step hbacked.built he hstep hq with
    hq | ⟨-, rfl⟩ | ⟨number, htask, -, rfl⟩
  · exact h.below hlive q hq m hm
  · rcases hmax : s.archiver.db.maxBlockNum with _ | k
    · simp [hmax] at hm
    · have hlt : m < k := by simpa [hmax] using hm
      have hk : s.archiver.db.Stores k := (Database.maxBlockNum_eq_some hmax).1
      apply Or.inl
      by_contra hnot
      have hle := h.owed m (hbacked.stored k hk m hlt) hnot k hk
      exact absurd hlt (not_lt.mpr hle)
  · have hnumber : number ∈ s.reports := by simp [reports, htask, ComparerTask.holds]
    rcases Nat.lt_succ_iff_lt_or_eq.mp hm with hlt | rfl
    · have hway : number ∈ s.onWay :=
        List.mem_append_right _ (List.mem_append_right _ hnumber)
      exact h.below hlive number hway m hlt
    · exact h.reported hlive m hnumber

theorem Delivered.reported_step (h : s.Delivered node facts heights)
    (hgenesis : node.archiveExecute s.world 0 ≠ .ok none)
    (hstep : Step node config s e t)
    (hahead : ∀ n ∈ s.ahead, n ∈ t.ahead)
    (hsent : ∀ n msg, s.executor = .built n msg → t.executor = .notifying n → n ∈ t.ahead)
    (hlive : ∀ message, s.archiver.task ≠ .panicked message) :
    ∀ n ∈ t.reports, t.Handled heights n := by
  intro n hn
  rcases mem_reports_of_step hstep hn with hn | hnone | ⟨msg, hbuilt, hnotifying⟩
  · exact (h.reported hlive n hn).imp_right (hahead n)
  · exact absurd hnone hgenesis
  · exact Or.inr (hsent n msg hbuilt hnotifying)

theorem delivered_boot (hconfig : config.resetForce = false) :
    Delivered node facts [] (boot config world) := by
  refine ⟨rfl, ?_, ?_, ?_, ?_, ?_, ?_⟩
  all_goals simp [boot, start, hconfig, onWay, ahead, inFlight, requests, reports,
    Notifier.restart, ArchiveTask.msg?, ExecutorTask.requests, ExecutorTask.reports,
    ComparerTask.holds]

theorem delivered_step (hconfig : config.resetForce = false) (hinv : s.CrashInv node facts)
    (hsorted : s.onWay.Pairwise (· ≤ ·)) (hbelow : s.NeverBelow)
    (hsucceeds : s.Succeeds e) (h : s.Delivered node facts heights)
    (hstep : Step node config s e t) : ∃ heights', t.Delivered node facts heights' := by
  have hgenesis : node.archiveExecute s.world 0 ≠ .ok none := by
    obtain ⟨p, hp⟩ := hinv.faithful.world.genesis
    rw [Node.archiveExecute_eq_some.mpr hp]
    simp
  have hway := fun he hlive ↦ h.below_step hinv.backed he hstep hlive
  have hreported := h.reported_step hgenesis hstep
  cases hstep with
  | crash =>
      refine ⟨heights, h.topic, h.ordered, h.first, h.stored, h.owed, ?_, ?_⟩
      · intro _ q hq
        simp [start, hconfig, onWay, ahead, inFlight, requests, reports, Notifier.restart,
          ArchiveTask.msg?, ExecutorTask.requests, ExecutorTask.reports, ComparerTask.holds] at hq
      · intro _ n hn
        simp [start, reports, ComparerTask.holds, ExecutorTask.reports] at hn
  | @archives reply archiver hstep =>
      obtain ⟨rfl, -⟩ := hsucceeds
      obtain ⟨heights', heffect⟩ : ∃ heights',
          TopicEffect node facts heights s.archiver archiver heights' :=
        topicEffect_of_step hinv.faithful.flow.current hstep
      exact ⟨heights', delivered_archives h hsorted hbelow hinv.not_failed hinv.backed.inserted
        heffect hstep⟩
  | @executorSends number msg htask =>
      have hahead : ahead { s with
          archiverQueue := s.archiverQueue ++ [msg]
          archived := s.archived ++ [msg]
          executor := .notifying number } = s.ahead ++ [msg.model.blockNum] := by
        simp [ahead]
      rw [hahead, hinv.backed.built number msg htask] at hreported
      refine ⟨heights, h.congr rfl ?_ (hway (by simp)) (hreported ?_ ?_)⟩
      · rw [hahead]
        exact fun n hn ↦ List.mem_append_left _ hn
      · exact fun n hn ↦ List.mem_append_left _ hn
      · intro n msg' hbuilt hnotifying
        rw [htask] at hbuilt
        cases hbuilt
        exact List.mem_append_right _ (List.mem_singleton_self number)
  | @receives msg queue htask hqueue =>
      have hahead : ahead { s with
          archiver := { s.archiver with task := .checkMetadata msg }
          archiverQueue := queue } = s.ahead := by
        simp [ahead, htask, hqueue, ArchiveTask.msg?]
      have hlive : ∀ message, s.archiver.task ≠ .panicked message := by simp [htask]
      refine ⟨heights, h.topic, h.ordered, h.first, h.stored, h.owed, ?_, ?_⟩
      · intro _ q hq m hm
        rw [Handled, hahead]
        exact hway (by simp) hlive q hq m hm
      · intro _ n hn
        rw [Handled, hahead]
        exact h.reported hlive n hn
  | backend | initialized | initializerPanics | executorReceives | executorPanics | genesisPassed
  | executorExecutes | executorBuilds | executorNotifies | comparerReceives | comparerAdvances
  | comparerDelays | comparerResends =>
      refine ⟨heights, h.congr rfl (fun _ hn ↦ hn) (hway (by simp)) (hreported (fun _ hn ↦ hn) ?_)⟩
      intro n msg hbuilt hnotifying
      simp_all

/-! ## The topics of a run -/

/-- Whatever fails or crashes, the metadata of a version is published at most
once, and as it stands in the table. -/
theorem metadata_published_once
    (hrun : Reaches node config (fun _ _ ↦ True) (boot config world) s) :
    s.archiver.publishedVersions.Nodup ∧
      ∀ payload ∈ metadataTopic s.archiver.published, ∃ row ∈ s.archiver.db.metadatas.rows,
        row.specVersion = payload.specVersion ∧ row.blockHash = payload.blockHash ∧
          row.metadata = payload.metadata := by
  have hinv : s.archiver.SendsOnce := by
    refine hrun.induct (I := fun s ↦ s.archiver.SendsOnce) ?_ ?_
    · exact ⟨trivial, List.nodup_nil, by simp [boot, start, metadataTopic, Notifier.restart],
        by simp [boot, start, Notifier.restart]⟩
    · intro a e b ha _ hstep
      cases hstep with
      | crash => exact ⟨trivial, ha.once, ha.rows, by simp [start, Notifier.restart]⟩
      | receives => exact ⟨trivial, ha.once, ha.rows, by simp⟩
      | archives hstep => exact Notifier.sendsOnce_step ha hstep
      | _ => exact ha
  exact ⟨hinv.once, hinv.rows⟩

/-- Metadata that was stored but not sent when the process went down, or when
the send failed, is never published. -/
theorem metadata_lost {v : ℕ} (hrun : Reaches node config (fun _ _ ↦ True) (boot config world) s)
    (hstored : v ∈ s.archiver.db.metadatas.keys) (hunpublished : v ∉ s.archiver.publishedVersions)
    (hother : ∀ msg metadata, s.archiver.task = .sendMetadata msg metadata →
      msg.model.specVersion ≠ v)
    (hmore : Reaches node config (fun _ _ ↦ True) s t) :
    v ∈ t.archiver.db.metadatas.keys ∧ v ∉ t.archiver.publishedVersions := by
  have hnew : ∀ {u}, Reaches node config (fun _ _ ↦ True) (boot config world) u →
      u.archiver.InsertsNew := by
    intro u hu
    exact hu.induct (I := fun u ↦ u.archiver.InsertsNew) trivial
      fun a e b ha _ hstep ↦ insertsNew_step ha hstep
  have hunsent : t.archiver.Unsent v := by
    induction hmore with
    | refl => exact ⟨hstored, hunpublished, hother⟩
    | tail hmore hlast ih =>
        obtain ⟨e, -, hnext⟩ := hlast
        cases step_of_next hnext with
        | crash => exact ⟨ih.1, ih.2.1, by simp [start, Notifier.restart]⟩
        | receives => exact ⟨ih.1, ih.2.1, by simp⟩
        | archives hstep => exact Notifier.unsent_step (hnew (hrun.trans hmore)) ih hstep
        | _ => exact ih
  exact ⟨hunsent.1, hunsent.2.1⟩

/-- The process goes down after the insert of block one and again after its
record. -/
def Sample.topicEvents : List Event :=
  List.flatten [[.initializer .ok], Sample.archiveEvents, List.replicate 6 (.archiver .ok),
    [.executor, .comparer, .comparer], Sample.archiveEvents, List.replicate 5 (.archiver .ok),
    [.crash, .initializer .ok], Sample.archiveEvents, List.replicate 3 (.archiver .ok),
    [.crash, .initializer .ok], Sample.archiveEvents, List.replicate 3 (.archiver .ok)]

/-- After the events that end with a crash before the metadata is sent, the
genesis block is archived. -/
def Sample.lostEvents : List Event :=
  .initializer .ok :: Sample.archiveEvents ++ List.replicate 3 (.archiver .ok)

/-- The versions stored and published, and whether the archiver is idle. -/
def Sample.versions (s : Pipeline) : List ℕ × List ℕ × Bool :=
  (s.archiver.db.metadatas.keys, s.archiver.publishedVersions, s.archiver.task.isWaiting)

theorem metadata_published_once_upgrade :
    ∃ s, Reaches Sample.node ⟨0, false⟩ (fun _ _ ↦ True)
        (boot ⟨0, false⟩ (Sample.world [(5, 2)])) s ∧
      Sample.versions s = ([1, 2], [1, 2], true) ∧ s.archiver.publishedVersions.Nodup := by
  have hcompute : (Transition.execute (next Sample.node ⟨0, false⟩) (fun _ _ ↦ True)
      (boot ⟨0, false⟩ (Sample.world [(5, 2)])) Sample.topicEvents).map Sample.versions =
      some ([1, 2], [1, 2], true) := by
    decide +kernel
  obtain ⟨s, hrun, hview⟩ := Transition.Reaches.exists_of_execute (fun _ _ _ h ↦ h) hcompute
  exact ⟨s, hrun, hview, (metadata_published_once hrun).1⟩

theorem metadata_lost_upgrade :
    ∃ s t, Reaches Sample.node ⟨0, false⟩ (fun _ _ ↦ True)
        (boot ⟨0, false⟩ (Sample.world [(5, 2)])) s ∧
      Reaches Sample.node ⟨0, false⟩ (fun _ _ ↦ True) s t ∧
      Sample.versions s = ([1, 2], [], true) ∧ 2 ∉ t.archiver.publishedVersions := by
  have hcompute : Sample.twice [(5, 2)] Sample.crashEvents Sample.lostEvents Sample.versions =
      some (([1, 2], [], true), ([1, 2], [], true)) := by
    decide +kernel
  obtain ⟨s, t, hrun, hmore, hview, -⟩ := Sample.exists_of_twice hcompute
  obtain ⟨hkeys, hrest⟩ := Prod.mk.inj hview
  obtain ⟨hpublished, hwaiting⟩ := Prod.mk.inj hrest
  have htask : s.archiver.task = .waiting := ArchiveTask.isWaiting_iff.mp hwaiting
  refine ⟨s, t, hrun, hmore, hview, ?_⟩
  refine (metadata_lost hrun ?_ ?_ ?_ hmore).2
  · rw [hkeys]
    decide
  · rw [hpublished]
    exact List.not_mem_nil
  · simp [htask]

theorem delivered_of_reaches (hconfig : config.resetForce = false)
    (hcollision : RuntimeVersionCache.NoCollision node.reader (Set.range facts.code))
    (hworld : facts.HoldIn node world)
    (hrun : Reaches node config (CrashOnly node facts) (boot config world) s) :
    s.CrashInv node facts ∧ ∃ heights, s.Delivered node facts heights := by
  induction hrun with
  | refl =>
      exact ⟨crashInv_start hconfig hworld Database.UpTo.empty, [], delivered_boot hconfig⟩
  | tail hrun hlast ih =>
      obtain ⟨hcrash, heights, hdelivered⟩ := ih
      obtain ⟨e, he, hnext⟩ := hlast
      have hstep := step_of_next hnext
      refine ⟨crashInv_step hconfig hcollision hcrash (sorted_ahead hrun) he hstep, ?_⟩
      exact delivered_step hconfig hcrash (sorted_onWay hrun)
        (neverBelow_of_reaches hconfig hrun).1 he.1 hdelivered hstep

theorem Sample.holdIn {entries : List (UInt8 × UInt8)}
    (hdistinct : (Sample.branch entries).Distinct) :
    (ChainFacts.ofBranch Sample.node (Sample.branch entries)).HoldIn Sample.node
      (Sample.world entries) := by
  refine ChainFacts.holdIn_of_shorter hdistinct hdistinct (List.prefix_refl _) rfl rfl ?_
  intro n block h
  obtain ⟨version, -, hcode⟩ := Sample.code_of_mem_blocks (List.mem_of_getElem? h)
  exact ⟨[version], hcode⟩

theorem Sample.noCollision {facts : ChainFacts}
    (hcodes : ∀ n, facts.code n ∈ ([[], [1], [2]] : List Bytes)) :
    RuntimeVersionCache.NoCollision Sample.node.reader (Set.range facts.code) := by
  rintro _ ⟨n, rfl⟩ _ ⟨m, rfl⟩
  have hinj : ∀ a ∈ ([[], [1], [2]] : List Bytes), ∀ b ∈ ([[], [1], [2]] : List Bytes),
      Sample.reader.makeHash (some a) = Sample.reader.makeHash (some b) → a = b := by
    decide
  exact hinj _ (hcodes n) _ (hcodes m)

def Sample.upgradeFacts : ChainFacts := .ofBranch Sample.node (Sample.branch [(5, 2)])

theorem Sample.upgradeFacts_holdIn : upgradeFacts.HoldIn Sample.node (Sample.world [(5, 2)]) := by
  refine Sample.holdIn ?_
  unfold Branch.Distinct
  decide +kernel

theorem Sample.upgradeFacts_noCollision :
    RuntimeVersionCache.NoCollision Sample.node.reader (Set.range upgradeFacts.code) := by
  refine Sample.noCollision fun n ↦ ?_
  rcases n with _ | _ | n
  · decide
  · decide
  · exact List.mem_cons_self

/-- A run of the sample without reorganisation is one of its growing chain. -/
theorem Sample.crashOnly (facts : ChainFacts) : ∀ s, ∀ e,
    s.Succeeds e ∧ e.isBackend = false → CrashOnly Sample.node facts s e := by
  rintro s e ⟨hsucceeds, hbackend⟩
  refine ⟨hsucceeds, ?_⟩
  rintro world rfl
  simp [Event.isBackend] at hbackend

end Pipeline

end SubArchive
