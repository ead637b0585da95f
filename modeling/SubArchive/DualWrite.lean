import Mathlib.Data.Set.Insert
import SubArchive.Chain
import SubArchive.Notifier
import SubArchive.Library.Transition

/-!
# The archiver by itself

Each call of `archive` writes to Postgres and then to Kafka, for the metadata
and for the block.  Nothing remembers that a send is owed after an insert, so
the tables and the topics drift apart exactly where an insert took effect and
the send after it did not.
-/

namespace SubArchive

inductive NotifierEvent where
  /-- a message arrives -/
  | receive (msg : ArchiveSendMsg)
  /-- the pending operation completes; the client answers metadata calls by
  `metadataAt` -/
  | proceed (metadataAt : BlockNumber → Except Panic (Except Error Bytes)) (reply : Reply)
  | restart

namespace Notifier

def next (a : Notifier) : NotifierEvent → Option Notifier
  | .receive msg => a.receive msg
  | .proceed metadataAt reply => a.proceed metadataAt reply
  | .restart => some a.restart

def boot : Notifier := ⟨.waiting, .empty, []⟩

abbrev Reaches (allowed : Notifier → NotifierEvent → Prop) : Notifier → Notifier → Prop :=
  Transition.Reaches next allowed

variable {a b : Notifier} {e : NotifierEvent} {msg : ArchiveSendMsg}
  {metadataAt : BlockNumber → Except Panic (Except Error Bytes)} {reply : Reply}

/-! ## Metadata before blocks -/

def MetadataPublished (published : List KafkaRecord) (v : ℕ) : Prop :=
  ∃ payload, KafkaRecord.metadata payload ∈ published ∧ payload.specVersion = v

theorem MetadataPublished.mono {published : List KafkaRecord} {v : ℕ}
    (h : MetadataPublished published v) (record : KafkaRecord) :
    MetadataPublished (published ++ [record]) v := by
  obtain ⟨payload, hmem, hversion⟩ := h
  exact ⟨payload, List.mem_append_left _ hmem, hversion⟩

def MetadataFirst (published : List KafkaRecord) : Prop :=
  ∀ before payload after, published = before ++ .block payload :: after →
    MetadataPublished before payload.specVersion

theorem MetadataFirst.concat {published : List KafkaRecord} {record : KafkaRecord}
    (h : MetadataFirst published)
    (hrecord : ∀ payload, record = .block payload →
      MetadataPublished published payload.specVersion) :
    MetadataFirst (published ++ [record]) := by
  intro before payload after heq
  rcases List.eq_nil_or_concat after with rfl | ⟨rest, last, rfl⟩
  · obtain ⟨rfl, hlast⟩ := List.append_inj' heq rfl
    exact hrecord payload (List.singleton_inj.mp hlast)
  · rw [List.concat_eq_append, ← List.cons_append, ← List.append_assoc] at heq
    exact h before payload rest (List.append_inj' heq rfl).1

/-- No metadata insert that takes effect has its reply lost, or is followed by
a failed send or by a crash before the send. -/
def PublishesMetadata (a : Notifier) (e : NotifierEvent) : Prop :=
  match e, a.task with
  | .proceed _ (.lost _), .insertMetadata msg metadata =>
      (a.db.insertMetadata (metadataModel msg metadata)).isNone
  | .proceed _ (.failed _), .sendMetadata _ _ => False
  | .restart, .sendMetadata _ _ => False
  | _, _ => True

instance (a : Notifier) (e : NotifierEvent) : Decidable (a.PublishesMetadata e) := by
  unfold PublishesMetadata
  rcases e with _ | ⟨_, _ | _ | _⟩ | _ <;> cases a.task <;> infer_instance

/-- Every stored version is published, or its metadata is the next to be
sent. -/
structure MetadataInv (a : Notifier) : Prop where
  stored : ∀ v ∈ a.db.metadatas.keys, MetadataPublished a.published v ∨
    ∃ msg metadata, a.task = .sendMetadata msg metadata ∧ msg.model.specVersion = v
  checked : ∀ msg, a.task = .insertBlock msg ∨ a.task = .sendBlock msg →
    MetadataPublished a.published msg.model.specVersion
  first : MetadataFirst a.published

theorem MetadataInv.published (h : a.MetadataInv)
    (hnot : ∀ msg metadata, a.task ≠ .sendMetadata msg metadata) :
    ∀ v ∈ a.db.metadatas.keys, MetadataPublished a.published v := by
  intro v hv
  rcases h.stored v hv with hv | ⟨msg, metadata, htask, -⟩
  · exact hv
  · exact absurd htask (hnot msg metadata)

theorem MetadataInv.published_concat {metadata : Bytes} (h : a.MetadataInv)
    (htask : a.task = .sendMetadata msg metadata) :
    ∀ v ∈ a.db.metadatas.keys, MetadataPublished
      (a.published ++ [.metadata (metadataPayload msg metadata)]) v := by
  intro v hv
  rcases h.stored v hv with hv | ⟨msg', metadata', htask', rfl⟩
  · exact hv.mono _
  · rw [htask] at htask'
    cases htask'
    exact ⟨metadataPayload msg metadata, by simp, rfl⟩

theorem MetadataInv.first_concat (h : a.MetadataInv) (htask : a.task = .sendBlock msg) :
    MetadataFirst (a.published ++ [.block msg.payload]) := by
  apply h.first.concat
  intro payload heq
  cases heq
  rw [msg.agrees.specVersion]
  exact h.checked msg (Or.inr htask)

theorem metadataInv_step (h : a.MetadataInv)
    (hallowed : a.PublishesMetadata (.proceed metadataAt reply))
    (hstep : Step metadataAt a reply b) : b.MetadataInv := by
  -- the published topics are all there is to see but for a pending send of metadata
  have hpublished := h.published
  cases hstep with
  | @metadataExists msg htask hexists =>
      have hall := hpublished (by simp [htask])
      refine ⟨fun v hv ↦ Or.inl (hall v hv), ?_, h.first⟩
      rintro m (hm | hm) <;> cases hm
      exact hall _ hexists
  | metadataMissing htask | checkFails htask | metadataRead htask | metadataPanics message htask
  | metadataInsertFails error htask | blockInsertFails error htask | blockSendFails error htask
  | errorDropped htask =>
      refine ⟨fun v hv ↦ Or.inl (hpublished (by simp [htask]) v hv), ?_, h.first⟩
      rintro m (hm | hm) <;> cases hm
  | @metadataInserted msg metadata db htask hinsert =>
      refine ⟨?_, ?_, h.first⟩
      · intro v hv
        rw [(Database.insertMetadata_eq_some.mp hinsert).2.1, KeyedTable.mem_keys_upsert] at hv
        rcases hv with rfl | hv
        · exact Or.inr ⟨msg, metadata, rfl, rfl⟩
        · exact Or.inl (hpublished (by simp [htask]) v hv)
      · rintro m (hm | hm) <;> cases hm
  | metadataInsertLost error htask hinsert =>
      simp [PublishesMetadata, htask, hinsert] at hallowed
  | @metadataSent msg metadata htask =>
      refine ⟨fun v hv ↦ Or.inl (h.published_concat htask v hv), ?_, h.first.concat (by simp)⟩
      rintro m (hm | hm) <;> cases hm
      exact ⟨metadataPayload msg metadata, by simp, rfl⟩
  | metadataSendLost error htask =>
      refine ⟨fun v hv ↦ Or.inl (h.published_concat htask v hv), ?_, h.first.concat (by simp)⟩
      rintro m (hm | hm) <;> cases hm
  | metadataSendFails error htask => simp [PublishesMetadata, htask] at hallowed
  | @blockInserted msg db htask hinsert =>
      rw [← (Database.insertBlock_eq_some.mp hinsert).2.1] at hpublished
      refine ⟨fun v hv ↦ Or.inl (hpublished (by simp [htask]) v hv), ?_, h.first⟩
      rintro m (hm | hm) <;> cases hm
      exact h.checked msg (Or.inl htask)
  | blockInsertLost error htask hinsert =>
      rw [← (Database.insertBlock_eq_some.mp hinsert).2.1] at hpublished
      refine ⟨fun v hv ↦ Or.inl (hpublished (by simp [htask]) v hv), ?_, h.first⟩
      rintro m (hm | hm) <;> cases hm
  | blockSent htask | blockSendLost error htask =>
      have hall := hpublished (by simp [htask])
      refine ⟨fun v hv ↦ Or.inl ((hall v hv).mono _), ?_, h.first_concat htask⟩
      rintro m (hm | hm) <;> cases hm

/-- In every run of the archiver in which no metadata send is lost behind its
insert, a block record comes after a metadata record with its version. -/
theorem metadata_before_blocks (hrun : Reaches PublishesMetadata boot a) :
    ∀ before payload after, a.published = before ++ .block payload :: after →
      ∃ metadata, .metadata metadata ∈ before ∧ metadata.specVersion = payload.specVersion := by
  have hinv : a.MetadataInv := by
    refine hrun.invariant ?_ ?_
    · refine ⟨?_, ?_, ?_⟩ <;> simp [boot, Database.empty, MetadataFirst]
    · intro a e b ha hallowed hnext
      cases e with
      | receive msg =>
          obtain ⟨htask, rfl⟩ := receive_eq_some.mp hnext
          obtain ⟨hstored, -, hfirst⟩ := ha
          refine ⟨?_, by simp, hfirst⟩
          intro v hv
          rcases hstored v hv with hv | ⟨msg, metadata, htask', -⟩
          · exact Or.inl hv
          · simp [htask] at htask'
      | proceed metadataAt reply => exact metadataInv_step ha hallowed (step_of_proceed hnext)
      | restart =>
          cases hnext
          obtain ⟨hstored, -, hfirst⟩ := ha
          refine ⟨?_, by simp [restart], hfirst⟩
          intro v hv
          rcases hstored v hv with hv | ⟨msg, metadata, htask, -⟩
          · exact Or.inl hv
          · simp [PublishesMetadata, htask] at hallowed
  exact hinv.first

def Sample.message (n : BlockNumber) : ArchiveSendMsg :=
  Sample.node.archiveSendMsg n ⟨[], [], []⟩ (Sample.block n [] 0 1).signed 1

@[simp] theorem Sample.message_payload_blockNum (n : BlockNumber) :
    (Sample.message n).payload.blockNum = (Sample.message n).model.blockNum := rfl

def Sample.proceed (reply : Reply) : NotifierEvent := .proceed (fun _ ↦ .ok (.ok [])) reply

theorem metadata_before_blocks_restart :
    ∃ a, Reaches PublishesMetadata boot a ∧ ∃ metadata,
      a.published = [.metadata metadata, .block (Sample.message 1).payload] ∧
      metadata.specVersion = (Sample.message 1).payload.specVersion := by
  have hcompute : (Transition.execute next PublishesMetadata boot
      [.receive (Sample.message 0), Sample.proceed .ok, Sample.proceed .ok, Sample.proceed .ok,
        Sample.proceed .ok, .restart, .receive (Sample.message 1), Sample.proceed .ok,
        Sample.proceed .ok, Sample.proceed .ok]).map (·.published) =
      some [.metadata (metadataPayload (Sample.message 0) []), .block (Sample.message 1).payload] :=
    rfl
  obtain ⟨a, hrun, hview⟩ := Transition.Reaches.exists_of_execute (fun _ _ _ h ↦ h) hcompute
  obtain ⟨metadata, hmem, hversion⟩ :=
    metadata_before_blocks hrun [_] (Sample.message 1).payload [] hview
  obtain rfl : metadata = metadataPayload (Sample.message 0) [] := by simpa using hmem
  exact ⟨a, hrun, _, hview, hversion⟩

/-- The metadata send of block zero fails after the insert; block one has the
same version and is published without metadata. -/
theorem block_without_metadata :
    ∃ a, Reaches (fun _ _ ↦ True) boot a ∧
      a.published = [.block (Sample.message 1).payload] := by
  have hcompute : (Transition.execute next (fun _ _ ↦ True) boot
      [.receive (Sample.message 0), Sample.proceed .ok, Sample.proceed .ok, Sample.proceed .ok,
        Sample.proceed (.failed "down"), Sample.proceed .ok, .receive (Sample.message 1),
        Sample.proceed .ok, Sample.proceed .ok, Sample.proceed .ok]).map (·.published) =
      some [.block (Sample.message 1).payload] :=
    rfl
  exact Transition.Reaches.exists_of_execute (fun _ _ _ h ↦ h) hcompute

/-! ## Rows and block records -/

def blockRecords (published : List KafkaRecord) (n : BlockNumber) : List BlockPayload :=
  published.filterMap fun
    | .block payload => if payload.blockNum = n then some payload else none
    | .metadata _ => none

def lastPublished (published : List KafkaRecord) (n : BlockNumber) : Option BlockPayload :=
  (blockRecords published n).getLast?

@[simp] theorem lastPublished_metadata (published : List KafkaRecord) (payload : MetadataPayload)
    (n : BlockNumber) :
    lastPublished (published ++ [.metadata payload]) n = lastPublished published n := by
  simp [lastPublished, blockRecords]

theorem lastPublished_block (published : List KafkaRecord) (payload : BlockPayload)
    (n : BlockNumber) :
    lastPublished (published ++ [.block payload]) n =
      if payload.blockNum = n then some payload else lastPublished published n := by
  by_cases hn : payload.blockNum = n <;> simp [lastPublished, blockRecords, hn]

/-- A height is neither stored nor published, or its row and its last record
come from one of the messages. -/
def AgreesAt (sent : Set ArchiveSendMsg) (a : Notifier) (n : BlockNumber) : Prop :=
  (¬ a.db.Stores n ∧ lastPublished a.published n = none) ∨
    ∃ msg ∈ sent, msg.model.blockNum = n ∧ msg.model ∈ a.db.blocks.rows ∧
      lastPublished a.published n = some msg.payload

def Repeats (a : Notifier) (payload : BlockPayload) : Prop :=
  lastPublished a.published payload.blockNum = some payload

/-- No send fails, and no reply is lost, after the insert of a block that is
not already the last one published for its height. -/
def PublishesBlock (a : Notifier) (e : NotifierEvent) : Prop :=
  match e, a.task with
  | .proceed _ (.lost _), .insertBlock msg =>
      (a.db.insertBlock msg.model).isNone ∨ a.Repeats msg.payload
  | .proceed _ (.failed _), .sendBlock msg => a.Repeats msg.payload
  | _, _ => True

instance (a : Notifier) (payload : BlockPayload) : Decidable (a.Repeats payload) :=
  inferInstanceAs (Decidable (_ = _))

instance (a : Notifier) (e : NotifierEvent) : Decidable (a.PublishesBlock e) := by
  unfold PublishesBlock
  rcases e with _ | ⟨_, _ | _ | _⟩ | _ <;> cases a.task <;> infer_instance

/-- One session in which every message is one of `sent` and its row and payload
carry the same height. -/
def Receives (sent : Set ArchiveSendMsg) : NotifierEvent → Prop
  | .receive msg => msg ∈ sent ∧ msg.payload.blockNum = msg.model.blockNum
  | .proceed _ _ => True
  | .restart => False

variable {sent : Set ArchiveSendMsg} {n : BlockNumber}

theorem lastPublished_eq_none_iff {published : List KafkaRecord} :
    lastPublished published n = none ↔
      ∀ payload, .block payload ∈ published → payload.blockNum ≠ n := by
  rw [lastPublished, List.getLast?_eq_none_iff, blockRecords, List.filterMap_eq_nil_iff]
  constructor
  · intro h payload hmem hn
    simpa [hn] using h _ hmem
  · intro h record hmem
    cases record with
    | metadata payload => rfl
    | block payload => simp [h payload hmem]

theorem AgreesAt.congr (h : AgreesAt sent a n) (hblocks : b.db.blocks = a.db.blocks)
    (hlast : lastPublished b.published n = lastPublished a.published n) : AgreesAt sent b n := by
  rw [AgreesAt, Database.Stores, hblocks, hlast]
  exact h

theorem AgreesAt.insertBlock {db : Database} {model : BlockModel} (h : AgreesAt sent a n)
    (hinsert : a.db.insertBlock model = some db) (hn : model.blockNum ≠ n)
    (hdb : b.db = db) (hpublished : b.published = a.published) : AgreesAt sent b n := by
  have hblocks := (Database.insertBlock_eq_some.mp hinsert).2.2
  rw [AgreesAt, hdb, hpublished, Database.stores_insertBlock hinsert, hblocks]
  rcases h with ⟨hstores, hlast⟩ | ⟨msg, hsent, rfl, hrow, hlast⟩
  · exact Or.inl ⟨by simp [hstores, hn.symm], hlast⟩
  · refine Or.inr ⟨msg, hsent, rfl, ?_, hlast⟩
    exact KeyedTable.mem_rows_upsert.mpr (Or.inr ⟨hrow, hn.symm⟩)

/-- All heights agree but the one whose record is the next to be sent. -/
structure BlockInv (sent : Set ArchiveSendMsg) (a : Notifier) : Prop where
  others : ∀ n, (∀ msg, a.task = .sendBlock msg → msg.model.blockNum ≠ n) → AgreesAt sent a n
  pending : ∀ msg, a.task = .sendBlock msg → msg.model ∈ a.db.blocks.rows
  message : ∀ msg ∈ a.task.msg?, msg ∈ sent ∧ msg.payload.blockNum = msg.model.blockNum

theorem blockInv_step (h : a.BlockInv sent)
    (hallowed : a.PublishesBlock (.proceed metadataAt reply))
    (hstep : Step metadataAt a reply b) : b.BlockInv sent := by
  obtain ⟨hothers, hpending, hmessage⟩ := h
  have hmessage' : ∀ msg ∈ b.task.msg?, msg ∈ sent ∧ msg.payload.blockNum = msg.model.blockNum :=
    fun msg hmsg ↦ hmessage msg (hstep.msg?_mem msg hmsg)
  have hall : (∀ msg, a.task ≠ .sendBlock msg) → ∀ n, AgreesAt sent a n :=
    fun hnot n ↦ hothers n fun msg htask ↦ absurd htask (hnot msg)
  have hsending : ∀ {msg n}, a.task = .sendBlock msg → ¬ msg.model.blockNum = n →
      AgreesAt sent a n := by
    intro msg n htask hn
    apply hothers n
    intro m hm
    rw [htask] at hm
    cases hm
    exact hn
  cases hstep with
  | metadataExists htask | metadataMissing htask | checkFails htask | metadataRead htask
  | metadataPanics message htask | metadataInsertFails error htask | blockInsertFails error htask
  | errorDropped htask | metadataSendFails error htask =>
      exact ⟨fun n _ ↦ hall (by simp [htask]) n, by simp, hmessage'⟩
  | metadataInserted htask hinsert | metadataInsertLost error htask hinsert =>
      refine ⟨fun n _ ↦ ?_, by simp, hmessage'⟩
      exact (hall (by simp [htask]) n).congr (Database.insertMetadata_eq_some.mp hinsert).2.2 rfl
  | metadataSent htask | metadataSendLost error htask =>
      refine ⟨fun n _ ↦ ?_, by simp, hmessage'⟩
      exact (hall (by simp [htask]) n).congr rfl (by simp)
  | @blockInserted msg db htask hinsert =>
      refine ⟨fun n hn ↦ ?_, ?_, hmessage'⟩
      · exact (hall (by simp [htask]) n).insertBlock hinsert (hn msg rfl) rfl rfl
      · rintro m hm
        cases hm
        rw [(Database.insertBlock_eq_some.mp hinsert).2.2]
        exact KeyedTable.mem_rows_upsert.mpr (Or.inl rfl)
  | @blockInsertLost msg db error htask hinsert =>
      obtain ⟨hsent, hheight⟩ := hmessage msg (by simp [htask, ArchiveTask.msg?])
      have hrepeats : a.Repeats msg.payload := by
        simpa [PublishesBlock, htask, hinsert] using hallowed
      refine ⟨fun n _ ↦ ?_, by simp, hmessage'⟩
      by_cases hn : msg.model.blockNum = n
      · refine Or.inr ⟨msg, hsent, hn, ?_, ?_⟩
        · change msg.model ∈ db.blocks.rows
          rw [(Database.insertBlock_eq_some.mp hinsert).2.2]
          exact KeyedTable.mem_rows_upsert.mpr (Or.inl rfl)
        · rw [← hn, ← hheight]
          exact hrepeats
      · exact (hall (by simp [htask]) n).insertBlock hinsert hn rfl rfl
  | @blockSent msg htask | @blockSendLost msg error htask =>
      obtain ⟨hsent, hheight⟩ := hmessage msg (by simp [htask, ArchiveTask.msg?])
      refine ⟨fun n _ ↦ ?_, by simp, hmessage'⟩
      by_cases hn : msg.model.blockNum = n
      · refine Or.inr ⟨msg, hsent, hn, hpending msg htask, ?_⟩
        rw [lastPublished_block, if_pos (hheight.trans hn)]
      · refine (hsending htask hn).congr rfl ?_
        rw [lastPublished_block, if_neg (hheight ▸ hn)]
  | @blockSendFails msg error htask =>
      obtain ⟨hsent, hheight⟩ := hmessage msg (by simp [htask, ArchiveTask.msg?])
      have hrepeats : a.Repeats msg.payload := by
        simpa [PublishesBlock, htask] using hallowed
      refine ⟨fun n _ ↦ ?_, by simp, hmessage'⟩
      by_cases hn : msg.model.blockNum = n
      · refine Or.inr ⟨msg, hsent, hn, hpending msg htask, ?_⟩
        rw [← hn, ← hheight]
        exact hrepeats
      · exact hsending htask hn

/-- In every session in which no send is lost behind the insert of a new row,
the idle archiver has published the heights it has stored, and the row and the
last record of a height come from one message. -/
theorem rows_and_records_agree
    (hrun : Reaches (fun a e ↦ Receives sent e ∧ a.PublishesBlock e) boot a)
    (hidle : a.task = .waiting) :
    (∀ n, a.db.Stores n ↔ ∃ payload, .block payload ∈ a.published ∧ payload.blockNum = n) ∧
    ∀ row ∈ a.db.blocks.rows, ∃ msg ∈ sent, row = msg.model ∧
      lastPublished a.published row.blockNum = some msg.payload := by
  have hinv : a.BlockInv sent := by
    refine hrun.invariant ?_ ?_
    · refine ⟨fun n _ ↦ Or.inl ⟨Database.not_stores_empty n, rfl⟩, ?_, ?_⟩ <;>
        simp [boot, ArchiveTask.msg?]
    · rintro a e b ha ⟨hreceives, hallowed⟩ hnext
      cases e with
      | receive msg =>
          obtain ⟨htask, rfl⟩ := receive_eq_some.mp hnext
          refine ⟨fun n _ ↦ ha.others n (by simp [htask]), by simp, ?_⟩
          intro m hm
          obtain rfl : msg = m := by simpa [ArchiveTask.msg?] using hm
          exact hreceives
      | proceed metadataAt reply => exact blockInv_step ha hallowed (step_of_proceed hnext)
      | restart => exact hreceives.elim
  have hagrees : ∀ n, AgreesAt sent a n := fun n ↦ hinv.others n (by simp [hidle])
  refine ⟨?_, ?_⟩
  · intro n
    have hnone : lastPublished a.published n = none ↔ _ := lastPublished_eq_none_iff
    rcases hagrees n with ⟨hstores, hlast⟩ | ⟨msg, -, rfl, hrow, hlast⟩
    · have hnot := hnone.mp hlast
      constructor
      · intro h
        exact absurd h hstores
      · rintro ⟨payload, hmem, hn⟩
        exact absurd hn (hnot payload hmem)
    · have hsome : ∃ payload, .block payload ∈ a.published ∧
          payload.blockNum = msg.model.blockNum := by
        by_contra hnot
        push Not at hnot
        rw [hnone.mpr hnot] at hlast
        simp at hlast
      exact ⟨fun _ ↦ hsome, fun _ ↦ KeyedTable.key_mem_keys hrow⟩
  · intro row hrow
    rcases hagrees row.blockNum with ⟨hstores, -⟩ | ⟨msg, hsent, hn, hrow', hlast⟩
    · exact absurd (KeyedTable.key_mem_keys hrow) hstores
    · exact ⟨msg, hsent, KeyedTable.eq_of_key_eq hrow hrow' hn.symm, hlast⟩

def Sample.failedInsertEvents : List NotifierEvent :=
  [.receive (Sample.message 0), Sample.proceed .ok, Sample.proceed .ok, Sample.proceed .ok,
    Sample.proceed .ok, Sample.proceed .ok, Sample.proceed .ok, .receive (Sample.message 1),
    Sample.proceed .ok, Sample.proceed (.failed "down"), Sample.proceed .ok]

theorem rows_and_records_agree_failed_insert :
    ∃ a, Reaches (fun a e ↦ Receives {Sample.message 0, Sample.message 1} e ∧ a.PublishesBlock e)
        boot a ∧ a.db.blocks.keys = [0] ∧
      ∃ payload, .block payload ∈ a.published ∧ payload.blockNum = 0 := by
  have hcompute : (Transition.execute next PublishesBlock boot Sample.failedInsertEvents).map
      (fun a ↦ (a.task.isWaiting, a.db.blocks.keys)) = some (true, [0]) := by
    decide +kernel
  have hreceives : ∀ a : Notifier, ∀ e ∈ Sample.failedInsertEvents, a.PublishesBlock e →
      Receives {Sample.message 0, Sample.message 1} e ∧ a.PublishesBlock e := by
    intro a e he hpublishes
    refine ⟨?_, hpublishes⟩
    simp only [Sample.failedInsertEvents, Sample.proceed, List.mem_cons, List.not_mem_nil,
      or_false] at he
    rcases he with rfl | rfl | rfl | rfl | rfl | rfl | rfl | rfl | rfl | rfl | rfl <;>
      simp [Receives]
  obtain ⟨a, hrun, hview⟩ := Transition.Reaches.exists_of_execute hreceives hcompute
  simp only [Prod.mk.injEq] at hview
  obtain ⟨hwaiting, hkeys⟩ := hview
  have hagree := (rows_and_records_agree hrun (ArchiveTask.isWaiting_iff.mp hwaiting)).1 0
  have hstores : a.db.Stores 0 := by simp [Database.Stores, hkeys]
  exact ⟨a, hrun, hkeys, hagree.mp hstores⟩

def Sample.failedSendEvents : List NotifierEvent :=
  [.receive (Sample.message 0), Sample.proceed .ok, Sample.proceed .ok, Sample.proceed .ok,
    Sample.proceed .ok, Sample.proceed .ok, Sample.proceed (.failed "down"), Sample.proceed .ok]

theorem row_without_record :
    ∃ a, Reaches (fun _ e ↦ Receives {Sample.message 0} e) boot a ∧ a.task = .waiting ∧
      a.db.Stores 0 ∧ lastPublished a.published 0 = none := by
  have hcompute : (Transition.execute next (fun _ _ ↦ True) boot Sample.failedSendEvents).map
      (fun a ↦ (a.task.isWaiting, a.db.blocks.keys, lastPublished a.published 0)) =
      some (true, [0], none) := by
    decide +kernel
  have hreceives : ∀ a : Notifier, ∀ e ∈ Sample.failedSendEvents, True →
      Receives {Sample.message 0} e := by
    intro a e he _
    simp only [Sample.failedSendEvents, Sample.proceed, List.mem_cons, List.not_mem_nil,
      or_false] at he
    rcases he with rfl | rfl | rfl | rfl | rfl | rfl | rfl | rfl <;> simp [Receives]
  obtain ⟨a, hrun, hview⟩ := Transition.Reaches.exists_of_execute hreceives hcompute
  simp only [Prod.mk.injEq] at hview
  obtain ⟨hwaiting, hkeys, hlast⟩ := hview
  exact ⟨a, hrun, ArchiveTask.isWaiting_iff.mp hwaiting, by simp [Database.Stores, hkeys], hlast⟩

end Notifier

end SubArchive
