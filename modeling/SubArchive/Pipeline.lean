import SubArchive.BlockExecutor
import SubArchive.Notifier
import SubArchive.Library.Transition

/-!
# The pipeline

`new_full_base` connects four tasks by three unbounded queues: the initializer
or the `reset_force` branch puts the start number on the executor queue, the
executor sends messages to the archiver and numbers to the comparer, and the
comparer puts numbers back on the executor queue.  A crash loses the queues and
the tasks; the tables and topics stay.
-/

namespace SubArchive

/-- The fields of `CliConfig` that decide the start number. -/
structure CliConfig where
  blockNum : BlockNumber
  resetForce : Bool
deriving DecidableEq, Repr

inductive InitializerTask where
  | starting
  | finished
  | panicked (message : Panic)
deriving DecidableEq, Repr

inductive ExecutorTask where
  | waiting
  | received (number : BlockNumber)
  | executed (number : BlockNumber) (storages : StorageChanges) (signedBlock : SignedBlock)
  | built (number : BlockNumber) (msg : ArchiveSendMsg)
  | notifying (number : BlockNumber)
  | panicked (message : Panic)

/-- Where `Comparer::run` is; `delaying` waits for the timer. -/
inductive ComparerTask where
  | waiting
  | comparing (blockNumber : BlockNumber)
  | delaying (blockNumber : BlockNumber)
deriving DecidableEq, Repr

structure Pipeline where
  world : World
  archiver : Notifier
  initializer : InitializerTask
  executorQueue : List BlockNumber
  executor : ExecutorTask
  versionCache : RuntimeVersionCache
  comparerQueue : List BlockNumber
  comparer : ComparerTask
  archiverQueue : List ArchiveSendMsg
  /-- every message sent to the archiver in this session, in order; no step
  reads it -/
  archived : List ArchiveSendMsg
  /-- every best number the comparer read in this session; no step reads it -/
  bests : List BlockNumber

inductive Event where
  /-- the backends move on -/
  | backend (world : World)
  /-- the process goes down and is started again -/
  | crash
  | initializer (reply : Reply)
  | executor
  | comparer
  /-- the archiver takes a message -/
  | receive
  | archiver (reply : Reply)

def Event.isBackend : Event → Bool
  | .backend _ => true
  | _ => false

namespace Pipeline

/-- A new session over given tables and topics. -/
def start (config : CliConfig) (world : World) (archiver : Notifier) : Pipeline where
  world := world
  archiver := archiver.restart
  initializer := if config.resetForce then .finished else .starting
  executorQueue := if config.resetForce then [config.blockNum] else []
  executor := .waiting
  versionCache := .new
  comparerQueue := []
  comparer := .waiting
  archiverQueue := []
  archived := []
  bests := []

def boot (config : CliConfig) (world : World) : Pipeline :=
  start config world ⟨.waiting, .empty, []⟩

/-- `Initializer::run` -/
def runInitializer (s : Pipeline) (reply : Reply) : Option Pipeline :=
  match s.initializer with
  | .starting =>
      match reply with
      | .ok =>
          let blockNumber := s.archiver.db.maxBlockNum.getD 0
          some { s with
            executorQueue := s.executorQueue ++ [blockNumber], initializer := .finished }
      | .failed error | .lost error =>
          let message := s!"initializer || get block number from db error:{error}"
          some { s with initializer := .panicked message }
  | _ => none

def runExecutor (node : Node) (s : Pipeline) : Option Pipeline :=
  match s.executor with
  | .waiting =>
      match s.executorQueue with
      | [] => none
      | number :: executorQueue =>
          some { s with executor := .received number, executorQueue }
  | .received number =>
      match node.archiveExecute s.world number with
      | .error panic => some { s with executor := .panicked panic }
      | .ok none => some { s with executor := .notifying number }
      | .ok (some (storages, signedBlock)) =>
          some { s with executor := .executed number storages signedBlock }
  | .executed number storages signedBlock =>
      match node.archiveBuild s.world s.versionCache number storages signedBlock with
      | .error panic => some { s with executor := .panicked panic }
      | .ok (msg, versionCache) => some { s with executor := .built number msg, versionCache }
  | .built number msg =>
      some { s with
        archiverQueue := s.archiverQueue ++ [msg]
        archived := s.archived ++ [msg]
        executor := .notifying number }
  | .notifying number =>
      some { s with comparerQueue := s.comparerQueue ++ [number], executor := .waiting }
  | .panicked _ => none

def runComparer (s : Pipeline) : Option Pipeline :=
  match s.comparer with
  | .waiting =>
      match s.comparerQueue with
      | [] => none
      | blockNumber :: comparerQueue =>
          some { s with comparer := .comparing blockNumber, comparerQueue }
  | .comparing blockNumber =>
      let bestNum := s.world.main.blockchain.info.bestNumber
      if blockNumber < bestNum then
        some { s with
          executorQueue := s.executorQueue ++ [blockNumber + 1]
          comparer := .waiting
          bests := s.bests ++ [bestNum] }
      else some { s with comparer := .delaying blockNumber, bests := s.bests ++ [bestNum] }
  | .delaying blockNumber =>
      some { s with
        executorQueue := s.executorQueue ++ [blockNumber], comparer := .waiting }

def receiveMsg (s : Pipeline) : Option Pipeline :=
  match s.archiverQueue with
  | [] => none
  | msg :: archiverQueue =>
      (s.archiver.receive msg).map fun archiver ↦ { s with archiver, archiverQueue }

def runArchiver (node : Node) (s : Pipeline) (reply : Reply) : Option Pipeline :=
  (s.archiver.proceed (node.metadata s.world) reply).map fun archiver ↦ { s with archiver }

def next (node : Node) (config : CliConfig) (s : Pipeline) : Event → Option Pipeline
  | .backend world => some { s with world }
  | .crash => some (start config s.world s.archiver)
  | .initializer reply => s.runInitializer reply
  | .executor => s.runExecutor node
  | .comparer => s.runComparer
  | .receive => s.receiveMsg
  | .archiver reply => s.runArchiver node reply

/-! ## What one step can do -/

inductive Step (node : Node) (config : CliConfig) (s : Pipeline) : Event → Pipeline → Prop
  | backend (world : World) : Step node config s (.backend world) { s with world }
  | crash : Step node config s .crash (start config s.world s.archiver)
  | initialized (htask : s.initializer = .starting) :
      Step node config s (.initializer .ok) { s with
        executorQueue := s.executorQueue ++ [s.archiver.db.maxBlockNum.getD 0]
        initializer := .finished }
  | initializerPanics {reply} (message : Panic) (htask : s.initializer = .starting) :
      Step node config s (.initializer reply) { s with initializer := .panicked message }
  | executorReceives {number executorQueue} (htask : s.executor = .waiting)
      (hqueue : s.executorQueue = number :: executorQueue) :
      Step node config s .executor { s with executor := .received number, executorQueue }
  | executorPanics (message : Panic)
      (hpanic : (∃ number, s.executor = .received number ∧
          node.archiveExecute s.world number = .error message) ∨
        ∃ number storages signedBlock, s.executor = .executed number storages signedBlock ∧
          node.archiveBuild s.world s.versionCache number storages signedBlock = .error message) :
      Step node config s .executor { s with executor := .panicked message }
  | genesisPassed (htask : s.executor = .received 0)
      (hexecute : node.archiveExecute s.world 0 = .ok none) :
      Step node config s .executor { s with executor := .notifying 0 }
  | executorExecutes {number storages signedBlock} (htask : s.executor = .received number)
      (hexecute : node.executeBlockAndIntoStorageChanges s.world number =
        .ok (some (storages, signedBlock))) :
      Step node config s .executor { s with executor := .executed number storages signedBlock }
  | executorBuilds {number storages signedBlock msg versionCache}
      (htask : s.executor = .executed number storages signedBlock)
      (hbuild : node.archiveBuild s.world s.versionCache number storages signedBlock =
        .ok (msg, versionCache)) :
      Step node config s .executor { s with executor := .built number msg, versionCache }
  | executorSends {number msg} (htask : s.executor = .built number msg) :
      Step node config s .executor { s with
        archiverQueue := s.archiverQueue ++ [msg]
        archived := s.archived ++ [msg]
        executor := .notifying number }
  | executorNotifies {number} (htask : s.executor = .notifying number) :
      Step node config s .executor { s with
        comparerQueue := s.comparerQueue ++ [number], executor := .waiting }
  | comparerReceives {number comparerQueue} (htask : s.comparer = .waiting)
      (hqueue : s.comparerQueue = number :: comparerQueue) :
      Step node config s .comparer { s with comparer := .comparing number, comparerQueue }
  | comparerAdvances {number} (htask : s.comparer = .comparing number)
      (hbest : number < s.world.main.blockchain.info.bestNumber) :
      Step node config s .comparer { s with
        executorQueue := s.executorQueue ++ [number + 1]
        comparer := .waiting
        bests := s.bests ++ [s.world.main.blockchain.info.bestNumber] }
  | comparerDelays {number} (htask : s.comparer = .comparing number)
      (hbest : ¬ number < s.world.main.blockchain.info.bestNumber) :
      Step node config s .comparer { s with
        comparer := .delaying number
        bests := s.bests ++ [s.world.main.blockchain.info.bestNumber] }
  | comparerResends {number} (htask : s.comparer = .delaying number) :
      Step node config s .comparer { s with
        executorQueue := s.executorQueue ++ [number], comparer := .waiting }
  | receives {msg archiverQueue} (htask : s.archiver.task = .waiting)
      (hqueue : s.archiverQueue = msg :: archiverQueue) :
      Step node config s .receive { s with
        archiver := { s.archiver with task := .checkMetadata msg }, archiverQueue }
  | archives {reply archiver}
      (hstep : Notifier.Step (node.metadata s.world) s.archiver reply archiver) :
      Step node config s (.archiver reply) { s with archiver }

variable {node : Node} {config : CliConfig} {s t : Pipeline}

theorem step_of_runExecutor (h : s.runExecutor node = some t) :
    Step node config s .executor t := by
  unfold runExecutor at h
  split at h
  · rename_i htask
    split at h
    · simp at h
    · rename_i number queue hqueue
      cases h
      exact .executorReceives htask hqueue
  · rename_i number htask
    split at h
    · rename_i panic hpanic
      cases h
      exact .executorPanics panic (Or.inl ⟨number, htask, hpanic⟩)
    · rename_i hexecute
      cases h
      obtain rfl := Node.archiveExecute_eq_none hexecute
      exact .genesisPassed htask hexecute
    · rename_i storages signedBlock hexecute
      cases h
      exact .executorExecutes htask (Node.archiveExecute_eq_some.mp hexecute)
  · rename_i number storages signedBlock htask
    split at h
    · rename_i panic hpanic
      cases h
      exact .executorPanics panic (Or.inr ⟨number, storages, signedBlock, htask, hpanic⟩)
    · rename_i msg cache hbuild
      cases h
      exact .executorBuilds htask hbuild
  · rename_i number msg htask
    cases h
    exact .executorSends htask
  · rename_i number htask
    cases h
    exact .executorNotifies htask
  · simp at h

theorem step_of_runComparer (h : s.runComparer = some t) : Step node config s .comparer t := by
  unfold runComparer at h
  split at h
  · rename_i htask
    split at h
    · simp at h
    · rename_i number queue hqueue
      cases h
      exact .comparerReceives htask hqueue
  · rename_i number htask
    dsimp only at h
    split at h
    · rename_i hbest
      cases h
      exact .comparerAdvances htask hbest
    · rename_i hbest
      cases h
      exact .comparerDelays htask hbest
  · rename_i number htask
    cases h
    exact .comparerResends htask

theorem step_of_next {e : Event} (h : next node config s e = some t) :
    Step node config s e t := by
  cases e with
  | backend world =>
      cases h
      exact .backend world
  | crash =>
      cases h
      exact .crash
  | initializer reply =>
      simp only [next, runInitializer] at h
      split at h
      · rename_i htask
        cases reply <;> cases h
        · exact .initialized htask
        · exact .initializerPanics _ htask
        · exact .initializerPanics _ htask
      · simp at h
  | executor => exact step_of_runExecutor h
  | comparer => exact step_of_runComparer h
  | receive =>
      simp only [next, receiveMsg] at h
      split at h
      · simp at h
      · rename_i msg queue hqueue
        obtain ⟨archiver, harchiver, rfl⟩ := Option.map_eq_some_iff.mp h
        obtain ⟨htask, rfl⟩ := Notifier.receive_eq_some.mp harchiver
        exact .receives htask hqueue
  | archiver reply =>
      obtain ⟨archiver, harchiver, rfl⟩ := Option.map_eq_some_iff.mp h
      exact .archives (Notifier.step_of_proceed harchiver)

/-! ## What flows through the pipeline -/

/-- `C` holds of the version cache, `Q` of what the executor has executed, and
`P` of every message, from the executor to the archiver. -/
structure Flow (C : RuntimeVersionCache → Prop)
    (Q : BlockNumber → StorageChanges → SignedBlock → Prop) (P : ArchiveSendMsg → Prop)
    (s : Pipeline) : Prop where
  cache : C s.versionCache
  executed : ∀ number storages signedBlock,
    s.executor = .executed number storages signedBlock → Q number storages signedBlock
  built : ∀ number msg, s.executor = .built number msg → P msg
  archived : ∀ msg ∈ s.archived, P msg
  queued : ∀ msg ∈ s.archiverQueue, P msg
  current : ∀ msg ∈ s.archiver.task.msg?, P msg

section Flow

variable {C : RuntimeVersionCache → Prop} {Q : BlockNumber → StorageChanges → SignedBlock → Prop}
  {P : ArchiveSendMsg → Prop} {world : World} {archiver : Notifier} {e : Event}

theorem flow_start (hcache : C .new) : Flow C Q P (start config world archiver) := by
  refine ⟨hcache, ?_, ?_, ?_, ?_, ?_⟩ <;> simp [start, Notifier.restart, ArchiveTask.msg?]

/-- Only the execution of a block and the building of its message bring
something new into the pipeline. -/
theorem flow_step (hcache : C .new)
    (hexecute : ∀ number storages signedBlock,
      node.executeBlockAndIntoStorageChanges s.world number =
        .ok (some (storages, signedBlock)) → Q number storages signedBlock)
    (hbuild : ∀ number storages signedBlock msg cache, e = .executor →
      s.executor = .executed number storages signedBlock → Q number storages signedBlock →
      node.archiveBuild s.world s.versionCache number storages signedBlock = .ok (msg, cache) →
      P msg ∧ C cache)
    (h : s.Flow C Q P) (hstep : Step node config s e t) : t.Flow C Q P := by
  obtain ⟨hold, hexecuted, hbuilt, harchived, hqueued, hcurrent⟩ := h
  cases hstep with
  | crash => exact flow_start hcache
  | executorReceives | executorPanics | genesisPassed | executorNotifies =>
      refine ⟨hold, ?_, ?_, harchived, hqueued, hcurrent⟩ <;> simp
  | @executorExecutes number storages signedBlock htask hnew =>
      refine ⟨hold, ?_, by simp, harchived, hqueued, hcurrent⟩
      intro _ _ _ heq
      cases heq
      exact hexecute number storages signedBlock hnew
  | @executorBuilds number storages signedBlock msg cache htask hnew =>
      have hQ := hexecuted number storages signedBlock htask
      obtain ⟨hP, hC⟩ := hbuild number storages signedBlock msg cache rfl htask hQ hnew
      refine ⟨hC, by simp, ?_, harchived, hqueued, hcurrent⟩
      intro _ _ heq
      cases heq
      exact hP
  | @executorSends number msg htask =>
      have hP := hbuilt number msg htask
      refine ⟨hold, by simp, by simp, ?_, ?_, hcurrent⟩
      · exact List.forall_mem_append.mpr ⟨harchived, by simpa using hP⟩
      · exact List.forall_mem_append.mpr ⟨hqueued, by simpa using hP⟩
  | @receives msg queue htask hqueue =>
      rw [hqueue, List.forall_mem_cons] at hqueued
      refine ⟨hold, hexecuted, hbuilt, harchived, hqueued.2, ?_⟩
      intro msg' hmsg'
      obtain rfl : msg = msg' := by simpa [ArchiveTask.msg?] using hmsg'
      exact hqueued.1
  | archives hstep =>
      exact ⟨hold, hexecuted, hbuilt, harchived, hqueued,
        fun msg hmsg ↦ hcurrent msg (hstep.msg?_mem msg hmsg)⟩
  | backend | initialized | initializerPanics | comparerReceives | comparerAdvances
  | comparerDelays | comparerResends =>
      exact ⟨hold, hexecuted, hbuilt, harchived, hqueued, hcurrent⟩

theorem Flow.stored (h : s.Flow C Q P) (hstep : Step node config s e t)
    (hstored : ∀ row ∈ s.archiver.db.blocks.rows, ∃ msg, P msg ∧ msg.model = row) :
    ∀ row ∈ t.archiver.db.blocks.rows, ∃ msg, P msg ∧ msg.model = row := by
  cases hstep with
  | archives hstep =>
      intro row hrow
      rcases hstep.mem_blocks row hrow with hrow | ⟨msg, hmsg, rfl⟩
      · exact hstored row hrow
      · exact ⟨msg, h.current msg hmsg, rfl⟩
  | _ => exact hstored

end Flow

/-! ## Runs -/

abbrev Reaches (node : Node) (config : CliConfig) (allowed : Pipeline → Event → Prop) :
    Pipeline → Pipeline → Prop :=
  Transition.Reaches (next node config) allowed

theorem Reaches.induct {allowed : Pipeline → Event → Prop} {I : Pipeline → Prop} {s t : Pipeline}
    (h : Reaches node config allowed s t) (hs : I s)
    (hstep : ∀ a e b, I a → allowed a e → Step node config a e b → I b) : I t :=
  h.invariant hs fun a e b ha he hnext ↦ hstep a e b ha he (step_of_next hnext)

end Pipeline

end SubArchive
