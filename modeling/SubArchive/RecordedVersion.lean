import SubArchive.NoHole

/-!
# The recorded version

The executor looks the version of a block up by the block's number, after it
has read the block and executed it on its parent.  So a row carries the version
of the code that the block leaves behind, not of the code that executed it.
-/

namespace SubArchive

/-- The message is about the block, and its version is that of the code in the
block's own state. -/
structure Records (node : Node) (msg : ArchiveSendMsg) (block : ChainBlock) (code : Bytes)
    (version : RuntimeVersion) : Prop where
  blockNum : msg.model.blockNum = block.header.number
  blockHash : msg.model.blockHash = block.hash node.codec
  parentHash : msg.model.parentHash = block.header.parentHash
  ownCode : block.state.storage codeKey = .ok (some code)
  codeVersion : node.reader.versionOf code = .ok version
  specVersion : msg.model.specVersion = version.specVersion

theorem Records.specVersionOf {node : Node} {msg : ArchiveSendMsg} {block : ChainBlock}
    {code : Bytes} {version : RuntimeVersion} (h : Records node msg block code version) :
    node.reader.specVersionOf code = .ok msg.model.specVersion := by
  rw [VersionReader.specVersionOf, h.codeVersion, h.specVersion, Except.map]

def BlockTree.Recorded (node : Node) (tree : BlockTree node.codec) (msg : ArchiveSendMsg) : Prop :=
  ∃ block ∈ tree.blocks, ∃ code version, Records node msg block code version

namespace Pipeline

variable {node : Node} {config : CliConfig} {world : World} {archiver : Notifier}
  {tree : BlockTree node.codec} {R : World → Branch node.codec} {s t : Pipeline} {e : Event}

/-- The block whose version the executor reads by number is the block it has
executed. -/
def ReadsOwnVersion (node : Node) (R : World → Branch node.codec) (s : Pipeline) : Prop :=
  match s.executor with
  | .executed number _ signedBlock => ∀ block ∈ (R s.world).at? number,
      block.hash node.codec = node.codec.hashHeader signedBlock.block.header
  | _ => True

instance (R : World → Branch node.codec) (s : Pipeline) : Decidable (s.ReadsOwnVersion node R) := by
  unfold ReadsOwnVersion
  cases s.executor <;> infer_instance

/-- What is in the pipeline is about blocks of the tree, and every version is
that of the block's own code. -/
structure VersionInv (node : Node) (tree : BlockTree node.codec) (R : World → Branch node.codec)
    (s : Pipeline) : Prop where
  world : s.world.readonly.PresentsFrom tree (R s.world)
  flow : s.Flow (·.Valid node.reader tree.codes)
    (fun number _ signedBlock ↦
      ∃ block ∈ tree.blocks, block.signed = signedBlock ∧ block.header.number = number)
    (tree.Recorded node)

theorem recorded_of_archiveBuild {w : World} {branch : Branch node.codec}
    {cache cache' : RuntimeVersionCache} {number : BlockNumber} {storages : StorageChanges}
    {block : ChainBlock} {msg : ArchiveSendMsg}
    (hcollision : RuntimeVersionCache.NoCollision node.reader tree.codes)
    (hworld : w.readonly.PresentsFrom tree branch) (hcache : cache.Valid node.reader tree.codes)
    (hmem : block ∈ tree.blocks) (hnumber : block.header.number = number)
    (hblock : ∀ block', branch.at? number = some block' → block' = block)
    (hbuild : node.archiveBuild w cache number storages block.signed = .ok (msg, cache')) :
    tree.Recorded node msg ∧ cache'.Valid node.reader tree.codes := by
  obtain ⟨version, hget, rfl⟩ := Node.archiveBuild_eq_ok.mp hbuild
  rcases hstate : w.readonly.stateAt (.number number) with error | state
  · simp [RuntimeVersionCache.getById, hstate] at hget
  · obtain ⟨block', hat, rfl⟩ := hworld.presents.stateByNumber number state hstate
    obtain rfl := hblock block' hat
    obtain ⟨code, hcode⟩ := tree.coded block' hmem
    obtain ⟨cache'', hget', hcache'⟩ := RuntimeVersionCache.getById_of_valid hcollision hcache
      hstate hcode ⟨block', hmem, hcode⟩
    rw [hget, Except.ok.injEq, Prod.mk.injEq] at hget'
    obtain ⟨hversion, rfl⟩ := hget'
    have hversion' : node.reader.versionOf code = .ok version := by
      rcases h : node.reader.versionOf code with error | v
      · simp [h, Except.map] at hversion
      · simpa [h, Except.map] using hversion.symm
    exact ⟨⟨block', hmem, code, version, hnumber.symm, rfl, rfl, hcode, hversion', rfl⟩, hcache'⟩

theorem versionInv_step
    (hcollision : RuntimeVersionCache.NoCollision node.reader tree.codes)
    (h : s.VersionInv node tree R)
    (hpresents : ∀ w, e = .backend w → w.readonly.PresentsFrom tree (R w))
    (hown : e = .executor → s.ReadsOwnVersion node R)
    (hstep : Step node config s e t) : t.VersionInv node tree R := by
  have hworld : t.world.readonly.PresentsFrom tree (R t.world) := by
    cases hstep with
    | backend w => exact hpresents w rfl
    | _ => exact h.world
  refine ⟨hworld, flow_step RuntimeVersionCache.valid_new ?_ ?_ h.flow hstep⟩
  · intro number storages signedBlock hexecute
    have hread := (Node.executeBlockAndIntoStorageChanges_eq_some.mp hexecute).1
    obtain ⟨block, hat, hsigned⟩ := h.world.presents.block number signedBlock hread
    exact ⟨block, h.world.mem number block hat, hsigned, (R s.world).numbered number block hat⟩
  · rintro number storages _ msg cache rfl htask ⟨block, hmem, rfl, hnumber⟩ hbuild
    have hblock : ∀ block', (R s.world).at? number = some block' → block' = block := by
      intro block' hat
      have hread := hown rfl
      simp only [ReadsOwnVersion, htask] at hread
      have hhash := hread block' hat
      exact tree.distinct block' (h.world.mem number block' hat) block hmem hhash
    exact recorded_of_archiveBuild hcollision h.world h.flow.cache hmem hnumber hblock hbuild

theorem versionInv_start (hworld : world.readonly.PresentsFrom tree (R world)) :
    VersionInv node tree R (start config world archiver) :=
  ⟨hworld, flow_start RuntimeVersionCache.valid_new⟩

/-- Every message was built, with some version, from an execution in a world of
the run. -/
theorem exists_execution {W : World → Prop} {allowed : Pipeline → Event → Prop}
    (hallowed : ∀ s w, allowed s (.backend w) → W w) (hworld : W world)
    (hrun : Reaches node config allowed (start config world archiver) s) :
    ∀ msg ∈ s.archived, ∃ w number storages signedBlock specVersion, W w ∧
      node.executeBlockAndIntoStorageChanges w number = .ok (some (storages, signedBlock)) ∧
      msg = node.archiveSendMsg number storages signedBlock specVersion := by
  let executed (number : BlockNumber) (storages : StorageChanges) (signedBlock : SignedBlock) :=
    ∃ w, W w ∧
      node.executeBlockAndIntoStorageChanges w number = .ok (some (storages, signedBlock))
  have hinv : W s.world ∧ s.Flow (fun _ ↦ True) executed (fun msg ↦
      ∃ w number storages signedBlock specVersion, W w ∧
        node.executeBlockAndIntoStorageChanges w number = .ok (some (storages, signedBlock)) ∧
        msg = node.archiveSendMsg number storages signedBlock specVersion) := by
    refine hrun.induct (I := fun s ↦ W s.world ∧ s.Flow (fun _ ↦ True) executed _)
      ⟨hworld, flow_start trivial⟩ ?_
    rintro a e b ⟨ha, hflow⟩ hstep_allowed hstep
    refine ⟨?_, flow_step trivial ?_ ?_ hflow hstep⟩
    · cases hstep with
      | backend w => exact hallowed _ w hstep_allowed
      | _ => exact ha
    · intro number storages signedBlock hexecute
      exact ⟨a.world, ha, hexecute⟩
    · rintro number storages signedBlock msg cache - - ⟨w, hw, hexecute⟩ hbuild
      obtain ⟨version, -, rfl⟩ := Node.archiveBuild_eq_ok.mp hbuild
      exact ⟨⟨w, number, storages, signedBlock, version.specVersion, hw, hexecute, rfl⟩, trivial⟩
  exact hinv.2.archived

/-- A run over a chain whose blocks never change. -/
def SameChain {codec : Codec} (branch : Branch codec) (_ : Pipeline) (e : Event) : Prop :=
  ∀ w, e = .backend w → w.Presents branch

/-- The storage changes are what one call of the parent's code, or of its
override, leaves on the parent's state; or what no call leaves, when the
client's backend does not allow one. -/
def ExecutedOn (node : Node) (w : World) (parent block : ChainBlock) (code : Bytes)
    (storages : StorageChanges) : Prop :=
  ∃ outcome, ((MockRuntimeApiImpl.new.settle outcome).intoStorageChanges parent.state).1 =
      .ok storages ∧
    (outcome = node.engine.call (node.overridden code) parent.state "Core_execute_block"
        (node.codec.encodeBlock block.signed.blockExecute) (.empty, none) ∨
      ¬ node.CanCall w (.hash (parent.hash node.codec)) ∧
        ∃ error, outcome = (.error error, .empty, none))

theorem executedOn_of_eq_some {branch : Branch node.codec} {w : World} {n : BlockNumber}
    {parent block : ChainBlock} {code : Bytes} {storages : StorageChanges}
    (hworld : w.Presents branch) (hparent : branch.at? n = some parent)
    (hcode : parent.state.storage codeKey = .ok (some code))
    (hhash : block.header.parentHash = parent.hash node.codec)
    (hexecute : node.executeBlockAndIntoStorageChanges w (n + 1) =
      .ok (some (storages, block.signed))) :
    ExecutedOn node w parent block code storages := by
  obtain ⟨-, state, hstate, hstorages⟩ := Node.executeBlockAndIntoStorageChanges_eq_some.mp hexecute
  have hheader : block.signed.block.header.parentHash = parent.hash node.codec := hhash
  rw [hheader] at hstate
  obtain rfl := hworld.readonly.stateByHash n parent state hparent hstate
  refine ⟨_, hstorages, ?_⟩
  rw [hheader]
  rcases node.executeBlockOutcome_cases w (.hash (parent.hash node.codec))
    block.signed.blockExecute with ⟨state', onchainCode, hstate', honchain, hcall⟩ | hnone
  · obtain rfl := hworld.main.stateByHash n parent state' hparent hstate'
    obtain rfl : code = onchainCode := by simpa [StateBackend.runtimeCode, hcode] using honchain
    exact Or.inl hcall
  · exact Or.inr hnone

/-- Along a chain whose blocks never change, with runtime upgrades anywhere,
every message carries the version of the code in the state of its own block.
What executed the block is the code in the state of its parent, or what
overrides that; the version is the one of this code exactly when the block's
own code has the same. -/
theorem recorded_version {branch : Branch node.codec} (hdistinct : branch.Distinct)
    (hcoded : ∀ b ∈ branch.blocks, ∃ code, b.state.storage codeKey = .ok (some code))
    (hcollision : RuntimeVersionCache.NoCollision node.reader
      (BlockTree.ofBranch branch hdistinct hcoded).codes)
    (hworld : world.Presents branch)
    (hrun : Reaches node config (SameChain branch) (start config world archiver) s) :
    ∀ msg ∈ s.archived, ∃ block code version,
      branch.at? msg.model.blockNum = some block ∧ Records node msg block code version ∧
      msg.payload.specVersion = version.specVersion ∧
      ∀ n, msg.model.blockNum = n + 1 → ∃ parent code' w storages,
        branch.at? n = some parent ∧ msg.model.parentHash = parent.hash node.codec ∧
        parent.state.storage codeKey = .ok (some code') ∧ w.Presents branch ∧
        node.executeBlockAndIntoStorageChanges w (n + 1) = .ok (some (storages, block.signed)) ∧
        ExecutedOn node w parent block code' storages ∧
        msg = node.archiveSendMsg (n + 1) storages block.signed version.specVersion ∧
        (node.reader.specVersionOf (node.overridden code') = .ok msg.model.specVersion ↔
          node.reader.specVersionOf (node.overridden code') = node.reader.specVersionOf code) := by
  have hpresents : ∀ w : World, w.readonly.Presents branch →
      w.readonly.PresentsFrom (BlockTree.ofBranch branch hdistinct hcoded) branch :=
    fun w hw ↦ ⟨hw, fun n block hat ↦ List.mem_of_getElem? hat⟩
  have hinv : VersionInv node (.ofBranch branch hdistinct hcoded) (fun _ ↦ branch) s := by
    apply hrun.induct (versionInv_start (hpresents world hworld.readonly))
    intro a e b ha hsame hstep
    refine versionInv_step hcollision ha (fun w hw ↦ hpresents w (hsame w hw).readonly) ?_ hstep
    intro _
    unfold ReadsOwnVersion
    split
    · rename_i number storages signedBlock htask
      intro block hat
      obtain ⟨block', hmem, rfl, hnumber⟩ := ha.flow.executed number storages signedBlock htask
      have hat' : branch.at? number = some block' := hnumber ▸ Branch.at?_of_mem hmem
      obtain rfl : block = block' := Option.some.inj ((Option.mem_def.mp hat).symm.trans hat')
      rfl
    · trivial
  intro msg hmsg
  obtain ⟨block, hmem, code, version, hrecords⟩ := hinv.flow.archived msg hmsg
  have hat : branch.at? msg.model.blockNum = some block := by
    rw [hrecords.blockNum]
    exact Branch.at?_of_mem hmem
  refine ⟨block, code, version, hat, hrecords,
    msg.agrees.specVersion.trans hrecords.specVersion, ?_⟩
  intro n hn
  obtain ⟨w, number, storages, signedBlock, specVersion, hw, hexecute, rfl⟩ :=
    exists_execution (fun _ w hsame ↦ hsame w rfl) hworld hrun msg hmsg
  obtain rfl : number = n + 1 := hn
  obtain rfl : specVersion = version.specVersion := hrecords.specVersion
  have hread := (Node.executeBlockAndIntoStorageChanges_eq_some.mp hexecute).1
  obtain ⟨block', hat', rfl⟩ := hw.readonly.block (n + 1) signedBlock hread
  obtain rfl : block = block' := Option.some.inj (hat.symm.trans hat')
  obtain ⟨parent, hparent, hhash⟩ := Branch.hashAt_eq_some.mp (Branch.parentHash_eq hat')
  obtain ⟨code', hcode'⟩ := hcoded parent (List.mem_of_getElem? hparent)
  refine ⟨parent, code', w, storages, hparent, hhash.symm, hcode', hw, hexecute,
    executedOn_of_eq_some hw hparent hcode' hhash.symm hexecute, rfl, ?_⟩
  rw [hrecords.specVersionOf]

def Sample.upgradeEvents : List Event :=
  [.initializer .ok] ++ Sample.archiveEvents ++ [.executor, .comparer, .comparer, .executor,
    .executor, .executor, .executor]

/-- The code of version one executes block one, which is recorded with the
version two of its own code. -/
theorem recorded_version_upgrade :
    ∃ s, Reaches Sample.node ⟨0, false⟩ (SameChain (Sample.branch [(5, 2)]))
        (start ⟨0, false⟩ (Sample.world [(5, 2)]) ⟨.waiting, .empty, []⟩) s ∧
      ∃ msg ∈ s.archived, msg.model.blockNum = 1 ∧ msg.model.specVersion = 2 ∧
        ∃ parent block code version w storages, Records Sample.node msg block code version ∧
          ExecutedOn Sample.node w parent block [1] storages ∧
          msg.payload.mainChanges = .ofList storages.mainStorageChanges := by
  have hdistinct : (Sample.branch [(5, 2)]).Distinct := by
    unfold Branch.Distinct
    decide +kernel
  have hcoded : ∀ b ∈ (Sample.branch [(5, 2)]).blocks,
      ∃ code, b.state.storage codeKey = .ok (some code) := by
    intro b hb
    obtain ⟨version, -, hcode⟩ := Sample.code_of_mem_blocks hb
    exact ⟨[version], hcode⟩
  have hcollision : RuntimeVersionCache.NoCollision Sample.node.reader
      (BlockTree.ofBranch (Sample.branch [(5, 2)]) hdistinct hcoded).codes := by
    have htwo : ∀ code ∈ (BlockTree.ofBranch (Sample.branch [(5, 2)]) hdistinct hcoded).codes,
        code ∈ ([[1], [2]] : List Bytes) := by
      rintro code ⟨b, hb, hcode⟩
      obtain ⟨version, hversion, hcode'⟩ := Sample.code_of_mem_blocks hb
      obtain rfl : code = [version] := by simpa [hcode] using hcode'
      simpa using hversion
    have hinj : ∀ a ∈ ([[1], [2]] : List Bytes), ∀ b ∈ ([[1], [2]] : List Bytes),
        Sample.reader.makeHash (some a) = Sample.reader.makeHash (some b) → a = b := by
      decide
    exact fun code hcode code' hcode' ↦ hinj code (htwo code hcode) code' (htwo code' hcode')
  have hcompute : (Transition.execute (next Sample.node ⟨0, false⟩) (fun _ e ↦ e.isBackend = false)
      (start ⟨0, false⟩ (Sample.world [(5, 2)]) ⟨.waiting, .empty, []⟩) Sample.upgradeEvents).map
      (fun s ↦ s.archived.map fun msg ↦ (msg.model.blockNum, msg.model.specVersion)) =
      some [(0, 1), (1, 2)] := by
    decide +kernel
  have hsame : ∀ s, ∀ e ∈ Sample.upgradeEvents, e.isBackend = false →
      SameChain (Sample.branch [(5, 2)]) s e := by
    rintro s e - hbackend w rfl
    simp [Event.isBackend] at hbackend
  have hbackend := Branch.backend_presents hdistinct 0
  obtain ⟨s, hrun, hview⟩ := Transition.Reaches.exists_of_execute hsame hcompute
  obtain ⟨msg, hmsg, hone⟩ : ∃ msg ∈ s.archived,
      (msg.model.blockNum, msg.model.specVersion) = (1, 2) := by
    rw [← List.mem_map, hview]
    simp
  obtain ⟨hheight, hspec⟩ := Prod.mk.inj hone
  obtain ⟨block, code, version, -, hrecords, -, hchild⟩ := recorded_version hdistinct hcoded
    hcollision ⟨hbackend, hbackend⟩ hrun msg hmsg
  obtain ⟨parent, code', w, storages, hparent, -, hcode', -, -, hexecuted, hmessage, -⟩ :=
    hchild 0 hheight
  obtain rfl : Sample.block 0 defaultHash 0 1 = parent := Option.some.inj hparent
  obtain rfl : [1] = code' := Option.some.inj (Except.ok.inj hcode')
  refine ⟨s, hrun, msg, hmsg, hheight, hspec, _, block, code, version, w, storages, hrecords,
    hexecuted, ?_⟩
  rw [hmessage]
  rfl

/-- The version recorded for block one is not that of the code in the state of
its parent. -/
theorem recorded_version_of_upgrade_block :
    ∃ msg cache version,
      Sample.node.archive (Sample.world [(5, 2)]) .new 1 = .ok (some msg, cache) ∧
      (Sample.world [(5, 2)]).main.stateAt (.hash msg.model.parentHash) = .ok (Sample.state 0 1) ∧
      (Sample.state 0 1).storage codeKey = .ok (some [1]) ∧
      Sample.reader.versionOf [1] = .ok version ∧
      msg.model.specVersion ≠ version.specVersion := by
  have hcompute : ((Sample.node.archive (Sample.world [(5, 2)]) .new 1).toOption.bind Prod.fst).map
      (fun msg ↦ (msg.model.specVersion, msg.model.parentHash)) = some (2, [0, 0]) := by
    decide +kernel
  rcases harchive : Sample.node.archive (Sample.world [(5, 2)]) .new 1 with
    panic | ⟨_ | msg, cache⟩
  · simp [harchive, Except.toOption] at hcompute
  · simp [harchive, Except.toOption] at hcompute
  · simp only [harchive, Except.toOption, Option.bind_some, Option.map_some, Option.some.injEq,
      Prod.mk.injEq] at hcompute
    obtain ⟨hversion, hparent⟩ := hcompute
    refine ⟨msg, cache, ⟨[], [], 0, 1, 0, [], 1⟩, rfl, ?_, rfl, by decide, by simp [hversion]⟩
    rw [hparent]
    rfl

end Pipeline

end SubArchive
