import SubArchive.Chain
import SubArchive.Pipeline

/-!
# Reads that are interleaved with chain switches

`archive` reads header, body and justifications of a height by number, and in
the end the version by number again.  The chain may be extended or switched
between any two of these reads, and nothing compares what they return.
-/

namespace SubArchive

/-- Every single answer about a height comes from the block of the branch
there. -/
structure Backend.ReadsFrom {codec : Codec} (backend : Backend) (branch : Branch codec) :
    Prop where
  header : ∀ n header, backend.blockchain.header (.number n) = .ok (some header) →
    ∃ block, branch.at? n = some block ∧ block.header = header
  body : ∀ n body, backend.blockchain.body (.number n) = .ok (some body) →
    ∃ block, branch.at? n = some block ∧ block.signed.block.extrinsics = body
  justifications : ∀ n justifications,
    backend.blockchain.justifications (.number n) = .ok justifications →
    justifications = (branch.at? n).bind (·.signed.justifications)
  stateByNumber : ∀ n state, backend.stateAt (.number n) = .ok state →
    ∃ block, branch.at? n = some block ∧ block.state = state

theorem Branch.backend_readsFrom {codec : Codec} (branch : Branch codec)
    (finalizedNumber : BlockNumber) : (branch.backend finalizedNumber).ReadsFrom branch where
  header n header h := by
    simpa [backend, lookup?] using h
  body n body h := by
    simpa [backend, lookup?] using h
  justifications n justifications h := by
    simpa [backend, lookup?, eq_comm] using h
  stateByNumber n state h := by
    rcases hblock : branch.at? n with _ | block
    · exact absurd h (backend_stateAt_number_none hblock state)
    · rw [backend_stateAt_number hblock] at h
      exact ⟨block, rfl, by simpa using h⟩

/-- The branches that the four reads by number meet. -/
structure ArchiveReads.Meets {codec : Codec} (reads : ArchiveReads)
    (header body justifications version : Branch codec) : Prop where
  header : reads.header.readonly.ReadsFrom header
  body : reads.body.readonly.ReadsFrom body
  justifications : reads.justifications.readonly.ReadsFrom justifications
  version : reads.version.readonly.ReadsFrom version

/-- One block, which may have got its justifications in between. -/
structure ChainBlock.SameAs (b b' : ChainBlock) : Prop where
  block : b.signed.block = b'.signed.block
  state : b.state = b'.state

/-! ## Where the parts of a message come from -/

structure ArchiveSendMsg.HeaderFrom (codec : Codec) (msg : ArchiveSendMsg) (header : Header) :
    Prop where
  blockHash : msg.model.blockHash = codec.hashHeader header ∧
    msg.payload.blockHash = codec.hashHeader header
  parentHash : msg.model.parentHash = header.parentHash ∧
    msg.payload.parentHash = header.parentHash
  stateRoot : msg.model.stateRoot = header.stateRoot ∧ msg.payload.stateRoot = header.stateRoot
  extrinsicsRoot : msg.model.extrinsicsRoot = header.extrinsicsRoot ∧
    msg.payload.extrinsicsRoot = header.extrinsicsRoot
  digest : msg.model.digest = codec.encodeDigest header.digest ∧
    msg.payload.digest = header.digest

structure ArchiveSendMsg.BodyFrom (codec : Codec) (msg : ArchiveSendMsg) (body : List Bytes) :
    Prop where
  model : msg.model.extrinsics = body.map codec.encodeExtrinsic
  payload : msg.payload.extrinsics = body

structure ArchiveSendMsg.JustificationsFrom (codec : Codec) (msg : ArchiveSendMsg)
    (justifications : Option Justifications) : Prop where
  model : msg.model.justifications =
    justifications.map fun js ↦ js.map codec.encodeJustification
  payload : msg.payload.justifications = justifications

/-- The changes are those of executing the header, without its last digest
item, with the body on the state of the header's parent. -/
def ArchiveSendMsg.ChangesFrom (node : Node) (reads : ArchiveReads) (msg : ArchiveSendMsg)
    (header : Header) (body : List Bytes) : Prop :=
  ∃ state storages, reads.state.readonly.stateAt (.hash header.parentHash) = .ok state ∧
    ((MockRuntimeApiImpl.new.settle (MockRuntimeApiImpl.executeBlockOutcome
      (node.client reads.execution) (.hash header.parentHash)
      ⟨header.digestPop, body⟩)).intoStorageChanges state).1 = .ok storages ∧
    msg.payload.mainChanges = node.storagesMap msg.model.blockNum storages ∧
    msg.model.mainChanges = msg.payload.mainChanges.toJson

/-- The version is that of the code in the state, read afresh or found in the
cache under the hash of the code. -/
def ArchiveSendMsg.VersionFrom (reader : VersionReader) (cache : RuntimeVersionCache)
    (msg : ArchiveSendMsg) (state : StateBackend) : Prop :=
  ∃ code version, state.storage codeKey = .ok code ∧
    ((reader.makeHash code, version) ∈ cache.versions.rows ∨
      ∃ c, code = some c ∧ reader.versionOf c = .ok version) ∧
    msg.model.specVersion = version.specVersion ∧ msg.payload.specVersion = version.specVersion

/-- All of the message is about one block. -/
structure ArchiveSendMsg.Describes (node : Node) (reads : ArchiveReads)
    (cache : RuntimeVersionCache) (msg : ArchiveSendMsg) (block : ChainBlock) : Prop where
  number : msg.model.blockNum = block.header.number ∧ msg.payload.blockNum = block.header.number
  header : msg.HeaderFrom node.codec block.header
  body : msg.BodyFrom node.codec block.signed.block.extrinsics
  justifications : msg.JustificationsFrom node.codec block.signed.justifications
  changes : msg.ChangesFrom node reads block.header block.signed.block.extrinsics
  version : msg.VersionFrom node.reader cache block.state

theorem RuntimeVersionCache.versionFrom_of_getById {reader : VersionReader} {backend : Backend}
    {cache cache' : RuntimeVersionCache} {id : BlockId} {version : RuntimeVersion}
    (hget : cache.getById reader backend id = .ok (.ok (some version), cache')) :
    ∃ state code, backend.stateAt id = .ok state ∧ state.storage codeKey = .ok code ∧
      ((reader.makeHash code, version) ∈ cache.versions.rows ∨
        ∃ c, code = some c ∧ reader.versionOf c = .ok version) := by
  unfold getById at hget
  rcases hstate : backend.stateAt id with error | state
  · simp [hstate] at hget
  rcases hcode : state.storage codeKey with error | code
  · simp [hstate, hcode] at hget
  refine ⟨state, code, rfl, hcode, ?_⟩
  rcases hfind : cache.versions.find? (reader.makeHash code) with _ | entry
  · rcases code with _ | code
    · simp [hstate, hcode, hfind] at hget
    rcases hversion : reader.versionOf code with error | version'
    · simp [hstate, hcode, hfind, hversion] at hget
    · obtain ⟨rfl, -⟩ : version' = version ∧ _ := by
        simpa [hstate, hcode, hfind, hversion] using hget
      exact Or.inr ⟨code, rfl, hversion⟩
  · obtain ⟨rfl, -⟩ : entry.2 = version ∧ cache = cache' := by
      simpa [hstate, hcode, hfind] using hget
    obtain ⟨hentry, hkey⟩ := KeyedTable.find?_eq_some_iff.mp hfind
    exact Or.inl (hkey ▸ hentry)

variable {node : Node} {reads : ArchiveReads} {cache cache' : RuntimeVersionCache}
  {n : BlockNumber} {msg : ArchiveSendMsg}
  {headers bodies justified versions : Branch node.codec}

/-- The two steps in which the pipeline's executor archives a number, with the
backends moving between them. -/
theorem Pipeline.archiveInterleaved_of_runExecutor {s t u v : Pipeline} {w : World}
    (hreceived : s.executor = .received n) (hfirst : s.runExecutor node = some t)
    (hmove : u = { t with world := w }) (hsecond : u.runExecutor node = some v)
    (hbuilt : v.executor = .built n msg) :
    node.archiveInterleaved ⟨s.world, s.world, s.world, s.world, s.world, w⟩ s.versionCache n =
      .ok (some msg, v.versionCache) := by
  have hseen : (ArchiveReads.mk s.world s.world s.world s.world s.world w).seen = s.world := rfl
  unfold runExecutor at hfirst
  rw [hreceived] at hfirst
  rw [Node.archiveInterleaved, hseen]
  rcases hexecute : node.archiveExecute s.world n with panic | _ | ⟨storages, signed⟩
  · obtain rfl : { s with executor := .panicked panic } = t := by simpa [hexecute] using hfirst
    subst hmove
    simp [runExecutor] at hsecond
  · obtain rfl : { s with executor := .notifying n } = t := by simpa [hexecute] using hfirst
    subst hmove
    obtain rfl : _ = v := by simpa [runExecutor] using hsecond
    simp at hbuilt
  · obtain rfl : { s with executor := .executed n storages signed } = t := by
      simpa [hexecute] using hfirst
    subst hmove
    simp only [runExecutor] at hsecond
    rcases hbuild : node.archiveBuild w s.versionCache n storages signed with panic | ⟨m, cache⟩
    · obtain rfl : _ = v := by simpa [hbuild] using hsecond
      simp at hbuilt
    · obtain rfl : _ = v := by simpa [hbuild] using hsecond
      obtain rfl : m = msg := by simpa using hbuilt
      simp [hbuild]

namespace Sample

theorem meets (a b c d : List (UInt8 × UInt8)) (state execution : World) :
    (ArchiveReads.mk (world a) (world b) (world c) state execution (world d)).Meets
      (branch a) (branch b) (branch c) (branch d) where
  header := (branch a).backend_readsFrom 0
  body := (branch b).backend_readsFrom 0
  justifications := (branch c).backend_readsFrom 0
  version := (branch d).backend_readsFrom 0

/-- The chain is extended between the reads. -/
def extended : ArchiveReads :=
  ⟨world [(5, 1)], world [(5, 1)], world [(5, 1), (6, 1)], world [(5, 1), (6, 1)],
    world [(5, 1), (6, 1)], world [(5, 1), (6, 1), (7, 1)]⟩

/-- Another branch becomes canonical after the header is read. -/
def switched : ArchiveReads :=
  ⟨world [(5, 1)], world [(6, 1)], world [(6, 1)], world [(6, 1)], world [(6, 1)],
    world [(6, 1)]⟩

end Sample

end SubArchive
