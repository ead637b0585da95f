import SubArchive.Postgres

/-!
# The archiver

`Notifier::archive` is a sequence of operations each of which may fail, so the
archiver is a task with one state per pending operation.  `Notifier::run` drops
the error of a failed call and takes the next message.
-/

namespace SubArchive

/-- A record on the broker, in the order of acceptance over all topics. -/
inductive KafkaRecord where
  | metadata (payload : MetadataPayload)
  | block (payload : BlockPayload)

/-- What Postgres or Kafka does with an operation.  A lost reply is an error
after the operation took effect. -/
inductive Reply where
  | ok
  | failed (error : String)
  | lost (error : String)
deriving DecidableEq, Repr

/-- The value after the operation and what its caller is told; `after` is
`none` when the operation is rejected. -/
def Reply.answer {α : Type} (reply : Reply) (before : α) (after : Option α) :
    α × Except Error Unit :=
  match reply, after with
  | .ok, some after => (after, .ok ())
  | .ok, none => (before, .error (.storage "rejected by a constraint"))
  | .failed error, _ => (before, .error (.storage error))
  | .lost error, some after => (after, .error (.storage error))
  | .lost error, none => (before, .error (.storage error))

inductive ArchiveTask where
  | waiting
  | checkMetadata (msg : ArchiveSendMsg)
  | getMetadata (msg : ArchiveSendMsg)
  | insertMetadata (msg : ArchiveSendMsg) (metadata : Bytes)
  | sendMetadata (msg : ArchiveSendMsg) (metadata : Bytes)
  | insertBlock (msg : ArchiveSendMsg)
  | sendBlock (msg : ArchiveSendMsg)
  | failed (msg : ArchiveSendMsg) (error : Error)
  | panicked (message : Panic)

def ArchiveTask.msg? : ArchiveTask → Option ArchiveSendMsg
  | .checkMetadata msg | .getMetadata msg | .insertMetadata msg _ | .sendMetadata msg _ => some msg
  | .insertBlock msg | .sendBlock msg | .failed msg _ => some msg
  | .waiting | .panicked _ => none

def ArchiveTask.isWaiting : ArchiveTask → Bool
  | .waiting => true
  | _ => false

theorem ArchiveTask.isWaiting_iff {task : ArchiveTask} :
    task.isWaiting = true ↔ task = .waiting := by
  cases task <;> simp [isWaiting]

structure Notifier where
  task : ArchiveTask
  db : Database
  published : List KafkaRecord

def metadataModel (msg : ArchiveSendMsg) (metadata : Bytes) : MetadataModel where
  specVersion := msg.model.specVersion
  blockNum := msg.model.blockNum
  blockHash := msg.payload.blockHash
  metadata := metadata

def metadataPayload (msg : ArchiveSendMsg) (metadata : Bytes) : MetadataPayload where
  specVersion := msg.model.specVersion
  blockNum := msg.payload.blockNum
  blockHash := msg.payload.blockHash
  metadata := metadata

namespace Notifier

def receive (notifier : Notifier) (msg : ArchiveSendMsg) : Option Notifier :=
  match notifier.task with
  | .waiting => some { notifier with task := .checkMetadata msg }
  | _ => none

/-- The pending operation completes with `reply`; `metadataAt` is the runtime
call by block number. -/
def proceed (metadataAt : BlockNumber → Except Panic (Except Error Bytes)) (notifier : Notifier)
    (reply : Reply) : Option Notifier :=
  match notifier.task with
  | .waiting => none
  | .checkMetadata msg =>
      match reply with
      | .ok =>
          if notifier.db.checkIfMetadataExists msg.model.specVersion then
            some { notifier with task := .insertBlock msg }
          else some { notifier with task := .getMetadata msg }
      | _ => some { notifier with task := .failed msg (.backend "db") }
  | .getMetadata msg =>
      match metadataAt msg.model.blockNum with
      | .ok (.ok metadata) => some { notifier with task := .insertMetadata msg metadata }
      | .ok (.error error) =>
          let hash := msg.payload.blockHash
          let parentHash := msg.payload.parentHash
          let number := msg.model.blockNum
          let message := s!"get metadata error, block hash:{hash}, pHash:{parentHash}, " ++
            s!"number:{number}, error:{repr error}"
          some { notifier with task := .panicked message }
      | .error panic => some { notifier with task := .panicked panic }
  | .insertMetadata msg metadata =>
      let (db, result) :=
        reply.answer notifier.db (notifier.db.insertMetadata (metadataModel msg metadata))
      match result with
      | .ok () => some { notifier with db, task := .sendMetadata msg metadata }
      | .error error => some { notifier with db, task := .failed msg error }
  | .sendMetadata msg metadata =>
      let (published, result) := reply.answer notifier.published
        (some (notifier.published ++ [.metadata (metadataPayload msg metadata)]))
      match result with
      | .ok () => some { notifier with published, task := .insertBlock msg }
      | .error error => some { notifier with published, task := .failed msg error }
  | .insertBlock msg =>
      let (db, result) := reply.answer notifier.db (notifier.db.insertBlock msg.model)
      match result with
      | .ok () => some { notifier with db, task := .sendBlock msg }
      | .error error => some { notifier with db, task := .failed msg error }
  | .sendBlock msg =>
      let (published, result) := reply.answer notifier.published
        (some (notifier.published ++ [.block msg.payload]))
      match result with
      | .ok () => some { notifier with published, task := .waiting }
      | .error error => some { notifier with published, task := .failed msg error }
  -- the error of `archive` is dropped
  | .failed _ _ => some { notifier with task := .waiting }
  | .panicked _ => none

/-- The process goes down and comes up again: the tables and topics are
kept. -/
def restart (notifier : Notifier) : Notifier := { notifier with task := .waiting }

/-! ## What one step can do -/

/-- The steps of the archiver, with the reply that leads to each. -/
inductive Step (metadataAt : BlockNumber → Except Panic (Except Error Bytes)) (s : Notifier) :
    Reply → Notifier → Prop
  | metadataExists {msg} (htask : s.task = .checkMetadata msg)
      (hexists : msg.model.specVersion ∈ s.db.metadatas.keys) :
      Step metadataAt s .ok { s with task := .insertBlock msg }
  | metadataMissing {msg} (htask : s.task = .checkMetadata msg)
      (hmissing : msg.model.specVersion ∉ s.db.metadatas.keys) :
      Step metadataAt s .ok { s with task := .getMetadata msg }
  | checkFails {msg reply} (htask : s.task = .checkMetadata msg) (hreply : reply ≠ .ok) :
      Step metadataAt s reply { s with task := .failed msg (.backend "db") }
  | metadataRead {msg metadata reply} (htask : s.task = .getMetadata msg)
      (hread : metadataAt msg.model.blockNum = .ok (.ok metadata)) :
      Step metadataAt s reply { s with task := .insertMetadata msg metadata }
  | metadataPanics {msg reply} (message : Panic) (htask : s.task = .getMetadata msg)
      (hread : ∀ metadata, metadataAt msg.model.blockNum ≠ .ok (.ok metadata)) :
      Step metadataAt s reply { s with task := .panicked message }
  | metadataInserted {msg metadata db} (htask : s.task = .insertMetadata msg metadata)
      (hinsert : s.db.insertMetadata (metadataModel msg metadata) = some db) :
      Step metadataAt s .ok { s with db, task := .sendMetadata msg metadata }
  | metadataInsertLost {msg metadata db} (error : String)
      (htask : s.task = .insertMetadata msg metadata)
      (hinsert : s.db.insertMetadata (metadataModel msg metadata) = some db) :
      Step metadataAt s (.lost error) { s with db, task := .failed msg (.storage error) }
  | metadataInsertFails {msg metadata reply} (error : Error)
      (htask : s.task = .insertMetadata msg metadata)
      (hreject : reply = .ok → s.db.insertMetadata (metadataModel msg metadata) = none) :
      Step metadataAt s reply { s with task := .failed msg error }
  | metadataSent {msg metadata} (htask : s.task = .sendMetadata msg metadata) :
      Step metadataAt s .ok { s with
        published := s.published ++ [.metadata (metadataPayload msg metadata)]
        task := .insertBlock msg }
  | metadataSendLost {msg metadata} (error : String)
      (htask : s.task = .sendMetadata msg metadata) :
      Step metadataAt s (.lost error) { s with
        published := s.published ++ [.metadata (metadataPayload msg metadata)]
        task := .failed msg (.storage error) }
  | metadataSendFails {msg metadata} (error : String)
      (htask : s.task = .sendMetadata msg metadata) :
      Step metadataAt s (.failed error) { s with task := .failed msg (.storage error) }
  | blockInserted {msg db} (htask : s.task = .insertBlock msg)
      (hinsert : s.db.insertBlock msg.model = some db) :
      Step metadataAt s .ok { s with db, task := .sendBlock msg }
  | blockInsertLost {msg db} (error : String) (htask : s.task = .insertBlock msg)
      (hinsert : s.db.insertBlock msg.model = some db) :
      Step metadataAt s (.lost error) { s with db, task := .failed msg (.storage error) }
  | blockInsertFails {msg reply} (error : Error) (htask : s.task = .insertBlock msg)
      (hreject : reply = .ok → s.db.insertBlock msg.model = none) :
      Step metadataAt s reply { s with task := .failed msg error }
  | blockSent {msg} (htask : s.task = .sendBlock msg) :
      Step metadataAt s .ok { s with
        published := s.published ++ [.block msg.payload], task := .waiting }
  | blockSendLost {msg} (error : String) (htask : s.task = .sendBlock msg) :
      Step metadataAt s (.lost error) { s with
        published := s.published ++ [.block msg.payload]
        task := .failed msg (.storage error) }
  | blockSendFails {msg} (error : String) (htask : s.task = .sendBlock msg) :
      Step metadataAt s (.failed error) { s with task := .failed msg (.storage error) }
  | errorDropped {msg error reply} (htask : s.task = .failed msg error) :
      Step metadataAt s reply { s with task := .waiting }

variable {metadataAt : BlockNumber → Except Panic (Except Error Bytes)} {s t : Notifier}

theorem Step.not_waiting {reply : Reply} (h : Step metadataAt s reply t) :
    s.task ≠ .waiting := by
  cases h <;> simp_all

theorem Step.msg?_mem {reply : Reply} (h : Step metadataAt s reply t) :
    ∀ msg ∈ t.task.msg?, msg ∈ s.task.msg? := by
  cases h <;> simp_all [ArchiveTask.msg?]

theorem Step.mem_blocks {reply : Reply} (h : Step metadataAt s reply t) :
    ∀ row ∈ t.db.blocks.rows, row ∈ s.db.blocks.rows ∨ ∃ msg ∈ s.task.msg?, msg.model = row := by
  intro row hrow
  cases h with
  | @blockInserted msg db htask hinsert | @blockInsertLost msg db _ htask hinsert =>
      rw [(Database.insertBlock_eq_some.mp hinsert).2.2, KeyedTable.mem_rows_upsert] at hrow
      rcases hrow with rfl | ⟨hrow, -⟩
      · exact Or.inr ⟨msg, by simp [htask, ArchiveTask.msg?], rfl⟩
      · exact Or.inl hrow
  | metadataInserted htask hinsert | metadataInsertLost _ htask hinsert =>
      rw [(Database.insertMetadata_eq_some.mp hinsert).2.2] at hrow
      exact Or.inl hrow
  | _ => exact Or.inl hrow

theorem receive_eq_some {msg : ArchiveSendMsg} :
    s.receive msg = some t ↔ s.task = .waiting ∧ t = { s with task := .checkMetadata msg } := by
  unfold receive
  split <;> simp_all [eq_comm]

theorem step_of_proceed {reply : Reply} (h : s.proceed metadataAt reply = some t) :
    Step metadataAt s reply t := by
  unfold proceed at h
  split at h
  · simp at h
  · rename_i msg htask
    split at h
    · split at h
      · rename_i hexists
        cases h
        exact .metadataExists htask (Database.checkIfMetadataExists_iff.mp hexists)
      · rename_i hmissing
        cases h
        exact .metadataMissing htask (mt Database.checkIfMetadataExists_iff.mpr hmissing)
    · rename_i hreply
      cases h
      exact .checkFails htask hreply
  · rename_i msg htask
    split at h
    · rename_i metadata hread
      cases h
      exact .metadataRead htask hread
    · rename_i error hread
      cases h
      exact .metadataPanics _ htask (by simp [hread])
    · rename_i panic hread
      cases h
      exact .metadataPanics _ htask (by simp [hread])
  · rename_i msg metadata htask
    rcases hinsert : s.db.insertMetadata (metadataModel msg metadata) with _ | db <;>
      cases reply <;> simp only [Reply.answer, hinsert, Option.some.injEq] at h <;> subst h
    · exact .metadataInsertFails _ htask fun _ ↦ hinsert
    · exact .metadataInsertFails _ htask fun _ ↦ hinsert
    · exact .metadataInsertFails _ htask fun _ ↦ hinsert
    · exact .metadataInserted htask hinsert
    · exact .metadataInsertFails _ htask (by simp)
    · exact .metadataInsertLost _ htask hinsert
  · rename_i msg metadata htask
    cases reply <;> simp only [Reply.answer, Option.some.injEq] at h <;> subst h
    · exact .metadataSent htask
    · exact .metadataSendFails _ htask
    · exact .metadataSendLost _ htask
  · rename_i msg htask
    rcases hinsert : s.db.insertBlock msg.model with _ | db <;>
      cases reply <;> simp only [Reply.answer, hinsert, Option.some.injEq] at h <;> subst h
    · exact .blockInsertFails _ htask fun _ ↦ hinsert
    · exact .blockInsertFails _ htask fun _ ↦ hinsert
    · exact .blockInsertFails _ htask fun _ ↦ hinsert
    · exact .blockInserted htask hinsert
    · exact .blockInsertFails _ htask (by simp)
    · exact .blockInsertLost _ htask hinsert
  · rename_i msg htask
    cases reply <;> simp only [Reply.answer, Option.some.injEq] at h <;> subst h
    · exact .blockSent htask
    · exact .blockSendFails _ htask
    · exact .blockSendLost _ htask
  · rename_i msg error htask
    cases h
    exact .errorDropped htask
  · simp at h

end Notifier

end SubArchive
