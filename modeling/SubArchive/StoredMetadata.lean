import SubArchive.HashLink
import SubArchive.RecordedVersion

/-!
# The stored metadata

The archiver fetches metadata by block number from the client, some time after
the executor has read the block and its version from the archive core.  A row
of `metadatas` is consistent when both by-number reads met the block that was
read first.
-/

namespace SubArchive

namespace Node

/-- A runtime code exports one metadata, whatever state it runs on. -/
def Exports (node : Node) (exported : Bytes → Bytes) : Prop :=
  ∀ code state pending bytes metadata,
    (node.engine.call code state "Metadata_metadata" [] pending).1 = .ok bytes →
    node.codec.decodeBytes bytes = some metadata → metadata = exported code

end Node

/-- The row is about the block, its own version and the metadata of its own
code. -/
structure MetadataModel.Describes (row : MetadataModel) (node : Node) (exported : Bytes → Bytes)
    (block : ChainBlock) (code : Bytes) (version : RuntimeVersion) : Prop where
  blockNum : block.header.number = row.blockNum
  blockHash : block.hash node.codec = row.blockHash
  ownCode : block.state.storage codeKey = .ok (some code)
  codeVersion : node.reader.versionOf code = .ok version
  specVersion : version.specVersion = row.specVersion
  metadata : row.metadata = exported (node.overridden code)

def BlockTree.Documented (node : Node) (tree : BlockTree node.codec) (exported : Bytes → Bytes)
    (row : MetadataModel) : Prop :=
  ∃ block ∈ tree.blocks, ∃ code version, row.Describes node exported block code version

variable {node : Node} {exported : Bytes → Bytes} {tree : BlockTree node.codec}

theorem BlockTree.Recorded.documented {msg : ArchiveSendMsg} {metadata : Bytes} {w : World}
    {branch : Branch node.codec} (h : tree.Recorded node msg) (hexports : node.Exports exported)
    (hworld : w.main.PresentsFrom tree branch)
    (hown : ∀ block ∈ branch.at? msg.model.blockNum,
      block.hash node.codec = msg.model.blockHash)
    (hread : node.metadata w msg.model.blockNum = .ok (.ok metadata)) :
    tree.Documented node exported (metadataModel msg metadata) := by
  obtain ⟨block, hmem, code, version, hrecords⟩ := h
  obtain ⟨state, onchainCode, code', bytes, pending, hstate, honchain, hcode', hcall, hdecode⟩ :=
    Node.metadata_eq_ok hread
  obtain ⟨block', hat, rfl⟩ := hworld.presents.stateByNumber _ state hstate
  have hhash : block'.hash node.codec = block.hash node.codec :=
    (hown block' hat).trans hrecords.blockHash
  obtain rfl := tree.distinct block' (hworld.mem _ block' hat) block hmem hhash
  have hcode : onchainCode = code := by
    simpa [StateBackend.runtimeCode, hrecords.ownCode, eq_comm] using honchain
  have hrun : code' = node.overridden code := by
    rw [← hcode]
    exact Node.overridden_of_checkOverride hstate honchain hcode'
  refine ⟨block', hmem, code, version, hrecords.blockNum.symm, ?_, hrecords.ownCode,
    hrecords.codeVersion, hrecords.specVersion.symm, ?_⟩
  · exact hrecords.blockHash.symm.trans msg.agrees.blockHash.symm
  · rw [← hrun]
    exact hexports code' _ pending bytes metadata hcall hdecode

namespace Notifier

variable {a b : Notifier} {reply : Reply} {w : World} {branch : Branch node.codec}

structure DocumentInv (node : Node) (tree : BlockTree node.codec) (exported : Bytes → Bytes)
    (notifier : Notifier) : Prop where
  stored : ∀ row ∈ notifier.db.metadatas.rows, tree.Documented node exported row
  fetched : ∀ msg metadata, notifier.task = .insertMetadata msg metadata →
    tree.Documented node exported (metadataModel msg metadata)

theorem DocumentInv.upsert {db : Database} {msg : ArchiveSendMsg} {metadata : Bytes}
    (h : a.DocumentInv node tree exported) (htask : a.task = .insertMetadata msg metadata)
    (hinsert : a.db.insertMetadata (metadataModel msg metadata) = some db) :
    ∀ row ∈ db.metadatas.rows, tree.Documented node exported row := by
  intro row hrow
  rw [(Database.insertMetadata_eq_some.mp hinsert).2.1, KeyedTable.mem_rows_upsert] at hrow
  rcases hrow with rfl | ⟨hold, -⟩
  · exact h.fetched msg metadata htask
  · exact h.stored row hold

theorem documentInv_step (hexports : node.Exports exported)
    (hworld : w.main.PresentsFrom tree branch)
    (hown : ∀ msg, a.task = .getMetadata msg → ∀ block ∈ branch.at? msg.model.blockNum,
      block.hash node.codec = msg.model.blockHash)
    (hcurrent : ∀ msg ∈ a.task.msg?, tree.Recorded node msg)
    (h : a.DocumentInv node tree exported) (hstep : Step (node.metadata w) a reply b) :
    b.DocumentInv node tree exported := by
  cases hstep with
  | @metadataRead msg metadata _ htask hread =>
      refine ⟨h.stored, ?_⟩
      intro msg' metadata' heq
      cases heq
      have hrecorded : tree.Recorded node msg := hcurrent msg (by simp [htask, ArchiveTask.msg?])
      exact hrecorded.documented hexports hworld (hown msg htask) hread
  | metadataInserted htask hinsert | metadataInsertLost _ htask hinsert =>
      exact ⟨h.upsert htask hinsert, by simp⟩
  | blockInserted _ hinsert | blockInsertLost _ _ hinsert =>
      refine ⟨?_, by simp⟩
      rw [(Database.insertBlock_eq_some.mp hinsert).2.1]
      exact h.stored
  | metadataExists | metadataMissing | checkFails | metadataPanics | metadataInsertFails
  | metadataSent | metadataSendLost | metadataSendFails | blockInsertFails | blockSent
  | blockSendLost | blockSendFails | errorDropped => exact ⟨h.stored, by simp⟩

end Notifier

namespace Pipeline

variable {config : CliConfig} {world : World} {R M : World → Branch node.codec} {s t : Pipeline}
  {e : Event}

/-- The block whose metadata the archiver asks for by number is the block of
the message. -/
def FetchesOwnMetadata (node : Node) (M : World → Branch node.codec) (s : Pipeline) : Prop :=
  match s.archiver.task with
  | .getMetadata msg => ∀ block ∈ (M s.world).at? msg.model.blockNum,
      block.hash node.codec = msg.model.blockHash
  | _ => True

instance (M : World → Branch node.codec) (s : Pipeline) :
    Decidable (s.FetchesOwnMetadata node M) := by
  unfold FetchesOwnMetadata
  exact match s.archiver.task with
    | .getMetadata _ => inferInstanceAs (Decidable (∀ block ∈ _, _))
    | .waiting | .checkMetadata _ | .insertMetadata _ _ | .sendMetadata _ _
    | .insertBlock _ | .sendBlock _ | .failed _ _ | .panicked _ => instDecidableTrue

/-- Blocks that are asked for by number are those at hand. -/
def MeetsOwnBlock (node : Node) (R M : World → Branch node.codec) (s : Pipeline) : Event → Prop
  | .executor => s.ReadsOwnVersion node R
  | .archiver _ => s.FetchesOwnMetadata node M
  | _ => True

instance (R M : World → Branch node.codec) (s : Pipeline) (e : Event) :
    Decidable (s.MeetsOwnBlock node R M e) :=
  match e with
  | .executor => inferInstanceAs (Decidable (s.ReadsOwnVersion node R))
  | .archiver _ => inferInstanceAs (Decidable (s.FetchesOwnMetadata node M))
  | .backend _ | .initializer _ | .comparer | .receive | .crash => instDecidableTrue

/-- Both backends present branches of the tree. -/
def PresentsTree {codec : Codec} (tree : BlockTree codec) (R M : World → Branch codec)
    (w : World) : Prop :=
  w.readonly.PresentsFrom tree (R w) ∧ w.main.PresentsFrom tree (M w)

structure DocumentInv (tree : BlockTree node.codec) (exported : Bytes → Bytes)
    (R M : World → Branch node.codec) (s : Pipeline) : Prop where
  version : s.VersionInv node tree R
  main : s.world.main.PresentsFrom tree (M s.world)
  archiver : s.archiver.DocumentInv node tree exported

theorem documentInv_step (hexports : node.Exports exported)
    (hcollision : RuntimeVersionCache.NoCollision node.reader tree.codes)
    (h : s.DocumentInv tree exported R M)
    (hpresents : ∀ w, e = .backend w → PresentsTree tree R M w)
    (hown : s.MeetsOwnBlock node R M e) (hstep : Step node config s e t) :
    t.DocumentInv tree exported R M := by
  have hversion : t.VersionInv node tree R := by
    refine versionInv_step hcollision h.version (fun w hw ↦ (hpresents w hw).1) ?_ hstep
    rintro rfl
    exact hown
  obtain ⟨hold, hmain, harchiver⟩ := h
  cases hstep with
  | backend w => exact ⟨hversion, (hpresents w rfl).2, harchiver⟩
  | crash => exact ⟨hversion, hmain, harchiver.stored, by simp [start, Notifier.restart]⟩
  | receives => exact ⟨hversion, hmain, harchiver.stored, by simp⟩
  | archives hstep =>
      refine ⟨hversion, hmain, ?_⟩
      refine Notifier.documentInv_step hexports hmain ?_ hold.flow.current harchiver hstep
      intro msg htask
      simpa only [MeetsOwnBlock, FetchesOwnMetadata, htask] using hown
  | initialized | initializerPanics | executorReceives | executorPanics | genesisPassed
  | executorExecutes | executorBuilds | executorSends | executorNotifies | comparerReceives
  | comparerAdvances | comparerDelays | comparerResends => exact ⟨hversion, hmain, harchiver⟩

def Sample.fork : BlockTree Sample.node.codec where
  blocks := {b | b ∈ (Sample.branch [(5, 2)]).blocks ∨ b ∈ (Sample.branch [(6, 3)]).blocks}
  distinct := by
    rintro b (hb | hb) b' (hb' | hb') <;>
      simp only [Sample.branch, Sample.blocks, List.mem_cons, List.not_mem_nil,
        or_false] at hb hb' <;>
      rcases hb with rfl | rfl <;> rcases hb' with rfl | rfl <;>
      first
        | exact fun _ ↦ rfl
        | exact fun h ↦ absurd h (by decide)
  coded := by
    rintro b (hb | hb) <;>
      obtain ⟨version, -, hcode⟩ := Sample.code_of_mem_blocks hb <;> exact ⟨[version], hcode⟩

def Sample.side (w : World) : Branch Sample.node.codec :=
  if w.hashAt Sample.codec 1 = some [1, 6] then Sample.branch [(6, 3)] else Sample.branch [(5, 2)]

theorem Sample.presentsFork {w : World}
    (h : w = Sample.world [(5, 2)] ∨ w = Sample.world [(6, 3)]) :
    PresentsTree Sample.fork Sample.side Sample.side w := by
  have hside : (w = (Sample.side w).world 0) ∧ (Sample.side w).Distinct ∧
      ∀ block ∈ (Sample.side w).blocks, block ∈ Sample.fork.blocks := by
    rcases h with rfl | rfl
    · have hside : Sample.side (Sample.world [(5, 2)]) = Sample.branch [(5, 2)] :=
        if_neg (by decide)
      rw [hside]
      refine ⟨rfl, ?_, fun _ h ↦ Or.inl h⟩
      unfold Branch.Distinct
      decide +kernel
    · have hside : Sample.side (Sample.world [(6, 3)]) = Sample.branch [(6, 3)] :=
        if_pos (by decide)
      rw [hside]
      refine ⟨rfl, ?_, fun _ h ↦ Or.inr h⟩
      unfold Branch.Distinct
      decide +kernel
  obtain ⟨hworld, hdistinct, hmem⟩ := hside
  have hpresents : ((Sample.side w).backend 0).PresentsFrom Sample.fork (Sample.side w) :=
    ⟨Branch.backend_presents hdistinct 0, fun _ block hat ↦ hmem block (List.mem_of_getElem? hat)⟩
  unfold PresentsTree
  constructor
  · exact (congrArg World.readonly hworld).symm ▸ hpresents
  · exact (congrArg World.main hworld).symm ▸ hpresents

theorem Sample.exports : Sample.node.Exports id := by
  intro code state pending bytes metadata hcall hdecode
  have hcode : code = bytes := by simpa [Sample.node, Sample.engine] using hcall
  have hbytes : bytes = metadata := by simpa [Sample.node, Sample.codec] using hdecode
  exact (hcode.trans hbytes).symm

/-- The chain switches after the genesis block is archived; block one of the
other side is archived with the metadata of its new runtime. -/
def Sample.forkEvents : List Event :=
  [.initializer .ok] ++ Sample.archiveEvents ++
  [.archiver .ok, .archiver .ok, .archiver .ok, .archiver .ok, .archiver .ok, .archiver .ok,
    .executor, .backend (Sample.world [(6, 3)]), .comparer, .comparer] ++ Sample.archiveEvents ++
  [.archiver .ok, .archiver .ok, .archiver .ok]

/-- The chain switches between the read of block one and the call for its
metadata. -/
def Sample.lateSwitchEvents : List Event :=
  [.initializer .ok] ++ Sample.archiveEvents ++
  [.archiver .ok, .archiver .ok, .archiver .ok, .archiver .ok, .archiver .ok, .archiver .ok,
    .executor, .comparer, .comparer] ++ Sample.archiveEvents ++
  [.archiver .ok, .backend (Sample.world [(6, 3)]), .archiver .ok, .archiver .ok]

end Pipeline

end SubArchive
