import SubArchive.ArchivedOnce

/-!
# Heights the readonly backend serves

The executor panics when a block, the state of its parent or the version at its
height cannot be read.  A height is put on its queue by the initializer, by
`reset_force` or by the comparer; the first two ask no backend and the comparer
asks the main one, while the executor reads the readonly one.
-/

namespace SubArchive

open Results

namespace Node

variable {node : Node} {world : World} {n : BlockNumber}

/-- The state at the height holds a code with a version. -/
def ServesVersion (node : Node) (world : World) (n : BlockNumber) : Prop :=
  ∃ state code version, world.readonly.stateAt (.number n) = .ok state ∧
    state.storage codeKey = .ok (some code) ∧ node.reader.versionOf code = .ok version

/-- The readonly backend has the block of the height with the state of its
parent and its version; the genesis block may be missing. -/
structure Serves (node : Node) (world : World) (n : BlockNumber) : Prop where
  readable : ∃ signedBlock?, (archiveCore world).getBlock n = .ok signedBlock?
  block : n ≠ 0 → (archiveCore world).getBlock n ≠ .ok none
  parent : n ≠ 0 → ∀ signedBlock, (archiveCore world).getBlock n = .ok (some signedBlock) →
    ∃ state, world.readonly.stateAt (.hash signedBlock.block.header.parentHash) = .ok state ∧
      ∀ changes, ∃ root, state.storageRoot changes = .ok root
  version : ∀ signedBlock, (archiveCore world).getBlock n = .ok (some signedBlock) →
    node.ServesVersion world n

/-- Everything but the genesis block is found, and nothing panics. -/
theorem Serves.archiveExecute (h : node.Serves world n) :
    ∃ result, node.archiveExecute world n = .ok result ∧ (n ≠ 0 → result.isSome = true) := by
  by_cases hn : n = 0
  · subst hn
    obtain ⟨_ | signedBlock, hblock⟩ := h.readable
    · exact ⟨none, by simp [Node.archiveExecute, executeBlockAndIntoStorageChanges, hblock],
        by simp⟩
    rcases hexecute : node.executeBlockAndIntoStorageChanges world 0 with panic | result
    · simp only [executeBlockAndIntoStorageChanges, hblock, getState_archiveCore,
        MockRuntimeApiImpl.executeBlock_new, ok_bind, pure_eq] at hexecute
      split at hexecute
      · simp at hexecute
      · split at hexecute <;> simp at hexecute
    · exact ⟨result, by simp [Node.archiveExecute, hexecute],
        by simp⟩
  · obtain ⟨signedBlock?, hblock⟩ := h.readable
    obtain ⟨signedBlock, rfl⟩ : ∃ signedBlock, signedBlock? = some signedBlock := by
      apply Option.ne_none_iff_exists'.mp
      rintro rfl
      exact h.block hn hblock
    obtain ⟨state, hstate, hroots⟩ := h.parent hn signedBlock hblock
    obtain ⟨storages, hstorages⟩ : ∃ storages,
        ((node.replayed world signedBlock).intoStorageChanges state).1 = .ok storages := by
      unfold MockRuntimeApiImpl.intoStorageChanges
      rcases (node.replayed world signedBlock).storage with _ | root
      · obtain ⟨root, hroot⟩ := hroots (node.replayed world signedBlock).changes.changes
        exact ⟨_, by simp [hroot, Except.map]; rfl⟩
      · exact ⟨_, rfl⟩
    have hexecute := executeBlockAndIntoStorageChanges_eq_some.mpr
      ⟨hblock, state, hstate, hstorages⟩
    exact ⟨_, archiveExecute_eq_some.mpr hexecute, fun _ ↦ rfl⟩

/-- A cached version is as good as one that is read. -/
theorem ServesVersion.archiveBuild (h : node.ServesVersion world n) (cache : RuntimeVersionCache)
    (storages : StorageChanges) (signedBlock : SignedBlock) :
    ∃ version msg cache', cache.getById node.reader world.readonly (.number n) =
        .ok (.ok (some version), cache') ∧
      node.archiveBuild world cache n storages signedBlock = .ok (msg, cache') := by
  obtain ⟨state, code, version, hstate, hcode, hversion⟩ := h
  obtain ⟨version, cache', hget⟩ : ∃ version cache',
      cache.getById node.reader world.readonly (.number n) = .ok (.ok (some version), cache') := by
    rcases hfind : cache.versions.find? (node.reader.makeHash (some code)) with _ | entry
    · refine ⟨version, ⟨cache.versions.upsert (node.reader.makeHash (some code), version)⟩, ?_⟩
      simp [RuntimeVersionCache.getById, hstate, hcode, hfind, hversion]
    · exact ⟨entry.2, cache, by simp [RuntimeVersionCache.getById, hstate, hcode, hfind]⟩
  exact ⟨version, _, cache', hget, archiveBuild_eq_ok.mpr ⟨version, hget, rfl⟩⟩

end Node

/-- A backend that holds a chain serves its heights. -/
theorem Branch.world_serves {node : Node} {branch : Branch node.codec} {n finalized : BlockNumber}
    {block : ChainBlock} (hdistinct : branch.Distinct) (hat : branch.at? n = some block)
    (hversion : ∃ code version, block.state.storage codeKey = .ok (some code) ∧
      node.reader.versionOf code = .ok version)
    (hroots : ∀ b ∈ branch.blocks, ∀ changes, ∃ root, b.state.storageRoot changes = .ok root) :
    node.Serves (branch.world finalized) n := by
  have hblock : (Node.archiveCore (branch.world finalized)).getBlock n = .ok (some block.signed) :=
    backend_getBlock hat
  refine ⟨⟨_, hblock⟩, by simp [hblock], ?_, ?_⟩
  · intro hn signedBlock hsigned
    obtain rfl : block.signed = signedBlock := by simpa [hblock] using hsigned
    obtain ⟨m, rfl⟩ := Nat.exists_eq_succ_of_ne_zero hn
    obtain ⟨parent, hparent, hhash⟩ := hashAt_eq_some.mp (parentHash_eq hat)
    refine ⟨parent.state, ?_, hroots parent (List.mem_of_getElem? hparent)⟩
    rw [show block.signed.block.header.parentHash = parent.hash node.codec from hhash.symm]
    exact backend_stateAt_hash hdistinct hparent
  · intro signedBlock _
    obtain ⟨code, version, hcode, hcodeVersion⟩ := hversion
    exact ⟨block.state, code, version, backend_stateAt_number hat, hcode, hcodeVersion⟩

namespace Pipeline

variable {node : Node} {config : CliConfig} {world : World} {archiver : Notifier}
  {s t : Pipeline} {e : Event} {n : BlockNumber}

/-- In `w` everything can be read that the executor still has to read. -/
structure Supplied (node : Node) (s : Pipeline) (w : World) : Prop where
  queued : ∀ n ∈ s.executorQueue, node.Serves w n
  received : ∀ n, s.executor = .received n → node.Serves w n
  executed : ∀ n storages signedBlock, s.executor = .executed n storages signedBlock →
    node.ServesVersion w n

/-- A number is put on the executor queue only when the readonly backend serves
it, and the backends go on serving what the executor still has to read. -/
def KeepsSupplied (node : Node) (config : CliConfig) (s : Pipeline) : Event → Prop
  | .backend w => s.Supplied node w
  | .crash => config.resetForce → node.Serves s.world config.blockNum
  | .initializer .ok => s.initializer = .starting →
      node.Serves s.world (s.archiver.db.maxBlockNum.getD 0)
  | .comparer =>
      match s.comparer with
      | .comparing n => n < s.world.main.blockchain.info.bestNumber → node.Serves s.world (n + 1)
      | .delaying n => node.Serves s.world n
      | .waiting => True
  | _ => True

theorem supplied_start (hserves : config.resetForce → node.Serves world config.blockNum) :
    (start config world archiver).Supplied node world := by
  refine ⟨?_, by simp [start], by simp [start]⟩
  intro n hn
  by_cases hreset : config.resetForce
  · obtain rfl : n = config.blockNum := by simpa [start, hreset] using hn
    exact hserves hreset
  · simp [start, hreset] at hn

theorem supplied_step (h : s.Supplied node s.world) (hsupplied : KeepsSupplied node config s e)
    (hstep : Step node config s e t) : t.Supplied node t.world := by
  obtain ⟨hqueued, hreceived, hexecuted⟩ := h
  cases hstep with
  | backend w => exact ⟨hsupplied.queued, hsupplied.received, hsupplied.executed⟩
  | crash => exact supplied_start hsupplied
  | initialized htask =>
      exact ⟨List.forall_mem_append.mpr ⟨hqueued, by simpa using hsupplied htask⟩, hreceived,
        hexecuted⟩
  | executorReceives htask hqueue =>
      rw [hqueue, List.forall_mem_cons] at hqueued
      exact ⟨hqueued.2, by simpa using hqueued.1, by simp⟩
  | @executorExecutes number storages signedBlock htask hexecute =>
      have hblock := (Node.executeBlockAndIntoStorageChanges_eq_some.mp hexecute).1
      have hversion := (hreceived number htask).version signedBlock hblock
      exact ⟨hqueued, by simp, by simpa using hversion⟩
  | executorPanics | genesisPassed | executorBuilds | executorSends | executorNotifies =>
      exact ⟨hqueued, by simp, by simp⟩
  | comparerAdvances htask hbest =>
      simp only [KeepsSupplied, htask] at hsupplied
      exact ⟨List.forall_mem_append.mpr ⟨hqueued, by simpa using hsupplied hbest⟩, hreceived,
        hexecuted⟩
  | comparerResends htask =>
      simp only [KeepsSupplied, htask] at hsupplied
      exact ⟨List.forall_mem_append.mpr ⟨hqueued, by simpa using hsupplied⟩, hreceived, hexecuted⟩
  | initializerPanics | comparerReceives | comparerDelays | receives | archives =>
      exact ⟨hqueued, hreceived, hexecuted⟩

theorem not_panicked_step (h : s.Supplied node s.world) (hpanicked : ¬ s.ExecutorPanicked)
    (hstep : Step node config s e t) : ¬ t.ExecutorPanicked := by
  cases hstep with
  | executorPanics message hpanic =>
      rcases hpanic with ⟨number, htask, hfails⟩ | ⟨number, storages, signedBlock, htask, hfails⟩
      · obtain ⟨result, hresult, -⟩ := (h.received number htask).archiveExecute
        simp [hresult] at hfails
      · obtain ⟨-, msg, cache', -, hbuild⟩ :=
          (h.executed number storages signedBlock htask).archiveBuild s.versionCache storages
            signedBlock
        simp [hbuild] at hfails
  | backend | initialized | initializerPanics | comparerReceives | comparerAdvances
  | comparerDelays | comparerResends | receives | archives => exact hpanicked
  | _ => simp [ExecutorPanicked, start]

/-- Over any tables, the executor never panics as long as every number that is
put on its queue is one that the readonly backend serves, then and until the
message is built: the block with its storage changes is found, unless it is the
genesis block, and so is its version. -/
theorem executor_never_panics
    (hserves : config.resetForce → node.Serves world config.blockNum)
    (hrun : Reaches node config (KeepsSupplied node config) (start config world archiver) s) :
    ¬ s.ExecutorPanicked ∧
    (∀ n, s.executor = .received n →
      ∃ result, node.archiveExecute s.world n = .ok result ∧ (n ≠ 0 → result.isSome = true)) ∧
    ∀ n storages signedBlock, s.executor = .executed n storages signedBlock →
      ∃ version msg cache', s.versionCache.getById node.reader s.world.readonly (.number n) =
          .ok (.ok (some version), cache') ∧
        node.archiveBuild s.world s.versionCache n storages signedBlock = .ok (msg, cache') := by
  have hinv : s.Supplied node s.world ∧ ¬ s.ExecutorPanicked := by
    apply hrun.induct ⟨supplied_start hserves, by simp [ExecutorPanicked, start]⟩
    rintro a e b ⟨hsupplied, hpanicked⟩ he hstep
    exact ⟨supplied_step hsupplied he hstep, not_panicked_step hsupplied hpanicked hstep⟩
  refine ⟨hinv.2, fun n hn ↦ (hinv.1.received n hn).archiveExecute, ?_⟩
  intro n storages signedBlock hn
  exact (hinv.1.executed n storages signedBlock hn).archiveBuild s.versionCache storages signedBlock

theorem Sample.serves {n : BlockNumber} (hn : n ≤ 1) :
    Sample.node.Serves (Sample.world [(5, 1)]) n := by
  have hdistinct : (Sample.branch [(5, 1)]).Distinct := by
    unfold Branch.Distinct
    decide +kernel
  obtain ⟨block, hat⟩ : ∃ block, (Sample.branch [(5, 1)]).at? n = some block :=
    ⟨_, List.getElem?_eq_getElem (Nat.lt_succ_of_le hn)⟩
  obtain ⟨version, -, hcode⟩ := Sample.code_of_mem_blocks (List.mem_of_getElem? hat)
  apply Branch.world_serves hdistinct hat ⟨[version], _, hcode, rfl⟩
  simp [Sample.branch, Sample.blocks, Sample.block, Sample.state]

theorem executor_never_panics_two_blocks :
    ∃ s, Reaches Sample.node ⟨0, false⟩ (KeepsSupplied Sample.node ⟨0, false⟩)
        (start ⟨0, false⟩ (Sample.world [(5, 1)]) ⟨.waiting, .empty, []⟩) s ∧
      s.heights = [0, 1] ∧ ¬ s.ExecutorPanicked := by
  have hcompute : (Transition.execute (next Sample.node ⟨0, false⟩)
      (fun s e ↦ e.isBackend = false ∧ InSession s e ∧ (∀ n ∈ s.comparer.holds, n ≤ 1) ∧
        s.archiver.db.maxBlockNum.getD 0 ≤ 1)
      (start ⟨0, false⟩ (Sample.world [(5, 1)]) ⟨.waiting, .empty, []⟩)
      Sample.twoBlockEvents).map (fun s ↦ s.heights) = some [0, 1] := by
    decide +kernel
  obtain ⟨s, hrun, hview⟩ := Transition.Reaches.exists_of_execute (fun _ _ _ h ↦ h) hcompute
  -- the backends stay, so they serve whatever is at most the best number
  obtain ⟨hrun, -⟩ := hrun.with_invariant (I := fun a ↦ a.world = Sample.world [(5, 1)]) rfl (by
    rintro a e b ha ⟨hbackend, hcrash, -⟩ hnext
    cases step_of_next hnext with
    | backend w => simp [Event.isBackend] at hbackend
    | crash => exact absurd rfl hcrash
    | _ => exact ha)
  have hrun' : Reaches Sample.node ⟨0, false⟩ (KeepsSupplied Sample.node ⟨0, false⟩)
      (start ⟨0, false⟩ (Sample.world [(5, 1)]) ⟨.waiting, .empty, []⟩) s := by
    refine hrun.mono ?_
    rintro a e ⟨⟨hbackend, hcrash, hholds, hmax⟩, hworld⟩
    cases e with
    | backend w => simp [Event.isBackend] at hbackend
    | crash => exact absurd rfl hcrash
    | initializer reply =>
        cases reply with
        | ok => exact fun _ ↦ hworld ▸ Sample.serves hmax
        | _ => trivial
    | comparer =>
        cases hcomparer : a.comparer with
        | waiting => simp only [KeepsSupplied, hcomparer]
        | comparing n =>
            simp only [KeepsSupplied, hcomparer, hworld]
            exact fun hbest ↦ Sample.serves hbest
        | delaying n =>
            simp only [KeepsSupplied, hcomparer, hworld]
            exact Sample.serves (hholds n (by simp [hcomparer, ComparerTask.holds]))
    | _ => trivial
  exact ⟨s, hrun', hview, (executor_never_panics (by simp) hrun').1⟩

/-- The archiver after a session that has stored two blocks. -/
def Sample.storedTwoBlocks : Notifier :=
  ((Transition.execute (next Sample.node ⟨0, false⟩) InSession
    (start ⟨0, false⟩ (Sample.world [(5, 1)]) ⟨.waiting, .empty, []⟩)
    Sample.twoBlockEvents).map (·.archiver)).getD ⟨.waiting, .empty, []⟩

/-- The tables hold two blocks and the node is a new one that only has its
genesis block. -/
theorem executor_panics_on_new_node :
    Sample.storedTwoBlocks.db.maxBlockNum = some 1 ∧
    ∃ s, Reaches Sample.node ⟨0, false⟩
        (fun s e ↦ e ≠ .crash ∧ s.Succeeds e ∧ e.isBackend = false)
        (start ⟨0, false⟩ (Sample.world []) Sample.storedTwoBlocks) s ∧ s.ExecutorPanicked := by
  refine ⟨by decide +kernel, ?_⟩
  have hcompute : (Transition.execute (next Sample.node ⟨0, false⟩)
      (fun s e ↦ InSession s e ∧ s.Succeeds e ∧ e.isBackend = false)
      (start ⟨0, false⟩ (Sample.world []) Sample.storedTwoBlocks)
      [.initializer .ok, .executor, .executor]).map (fun s ↦ match s.executor with
        | .panicked message => some message
        | _ => none) = some (some "executor >> SYNC 1 get storages is none") := by
    decide +kernel
  obtain ⟨s, hrun, hview⟩ := Transition.Reaches.exists_of_execute (fun _ _ _ h ↦ h) hcompute
  refine ⟨s, hrun, ?_⟩
  split at hview
  · rename_i message hmessage
    exact ⟨message, hmessage⟩
  · simp at hview

end Pipeline

end SubArchive
