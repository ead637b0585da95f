import Mathlib.Algebra.BigOperators.Group.List.Basic
import Mathlib.Algebra.Ring.Nat
import SubArchive.Delivery
import SubArchive.NeverPanics

/-!
# Catching up

While the process runs, nothing fails and no block is added, each step of a
task brings the pipeline nearer to the moment when only the timer of the
comparer is left to fire.  The tables and the topic of blocks then hold all
heights up to the best one.
-/

namespace SubArchive

/-! ## What is left to do -/

def ArchiveTask.effort : ArchiveTask → ℕ
  | .waiting | .panicked _ => 0
  | .failed _ _ => 1
  | .sendBlock _ => 2
  | .insertBlock _ => 3
  | .sendMetadata _ _ => 4
  | .insertMetadata _ _ => 5
  | .getMetadata _ => 6
  | .checkMetadata _ => 7

/-- The steps that take the loop from a height to the best one. -/
def remaining (best n : ℕ) : ℕ := 16 * (best - n)

def ExecutorTask.effort (best : ℕ) : ExecutorTask → ℕ
  | .waiting | .panicked _ => 0
  | .received number => remaining best number + 15
  | .executed number _ _ => remaining best number + 14
  | .built number _ => remaining best number + 13
  | .notifying number => remaining best number + 4

def ComparerTask.effort (best : ℕ) : ComparerTask → ℕ
  | .waiting => 0
  | .comparing number => remaining best number + 2
  | .delaying number => if number < best then remaining best number + 17 else 1

def InitializerTask.effort (best : ℕ) : InitializerTask → ℕ
  | .starting => remaining best 0 + 17
  | .finished | .panicked _ => 0

theorem Notifier.effort_step {a b : Notifier}
    {metadataAt : BlockNumber → Except Panic (Except Error Bytes)} {reply : Reply}
    (hstep : Notifier.Step metadataAt a reply b) : b.task.effort < a.task.effort := by
  cases hstep <;> simp_all [ArchiveTask.effort]

/-- An archiver at work goes on when its operation succeeds or is rejected. -/
theorem Notifier.proceed_ok {a : Notifier}
    {metadataAt : BlockNumber → Except Panic (Except Error Bytes)} (hbusy : a.task ≠ .waiting)
    (hlive : ∀ message, a.task ≠ .panicked message) : ∃ b, a.proceed metadataAt .ok = some b := by
  unfold Notifier.proceed
  split
  · rename_i htask
    exact absurd htask hbusy
  · dsimp only
    split <;> exact ⟨_, rfl⟩
  · split <;> exact ⟨_, rfl⟩
  · split
    split <;> exact ⟨_, rfl⟩
  · split
    split <;> exact ⟨_, rfl⟩
  · split
    split <;> exact ⟨_, rfl⟩
  · split
    split <;> exact ⟨_, rfl⟩
  · exact ⟨_, rfl⟩
  · rename_i message htask
    exact absurd htask (hlive message)

theorem remaining_succ {best n : ℕ} (h : n < best) :
    remaining best (n + 1) + 16 = remaining best n := by
  unfold remaining
  omega

theorem remaining_le_zero (best n : ℕ) : remaining best n ≤ remaining best 0 := by
  unfold remaining
  omega

theorem ComparerTask.effort_waiting (best : ℕ) : waiting.effort best = 0 := rfl

theorem ComparerTask.effort_comparing (best n : ℕ) :
    (comparing n).effort best = remaining best n + 2 := rfl

/-- The timer fires only when there is a block to go on with. -/
def ComparerTask.GoesOn (best : ℕ) : ComparerTask → Prop
  | .delaying number => number < best
  | .waiting | .comparing _ => True

instance (best : ℕ) (task : ComparerTask) : Decidable (task.GoesOn best) :=
  match task with
  | .delaying number => inferInstanceAs (Decidable (number < best))
  | .waiting | .comparing _ => inferInstanceAs (Decidable True)

theorem ComparerTask.effort_delaying_of_lt {best n : ℕ} (h : n < best) :
    (ComparerTask.delaying n).effort best = remaining best n + 17 := by
  rw [effort, if_pos h]

theorem ComparerTask.effort_delaying_of_le {best n : ℕ} (h : ¬ n < best) :
    (ComparerTask.delaying n).effort best = 1 := by
  rw [effort, if_neg h]

/-! ## A chain that is served -/

namespace ChainFacts

variable {node : Node} {facts : ChainFacts} {w : World} {n : BlockNumber}

/-- Up to the best height the backends answer and the tables take what they
answer. -/
structure Complete (node : Node) (facts : ChainFacts) (w : World) : Prop where
  holds : facts.HoldIn node w
  serves : ∀ n ≤ w.main.blockchain.info.bestNumber, node.Serves w n
  metadata : ∀ n ≤ w.main.blockchain.info.bestNumber, ∃ metadata,
    node.metadata w n = .ok (.ok metadata)
  version : ∀ n ≤ w.main.blockchain.info.bestNumber, facts.specVersion node n < 2147483648
  partition : ∀ n ≤ w.main.blockchain.info.bestNumber, n < 2147483647 ∧ inPartition n = true

theorem Complete.executes (h : facts.Complete node w)
    (hn : n ≤ w.main.blockchain.info.bestNumber) :
    ∃ storages signedBlock, node.archiveExecute w n = .ok (some (storages, signedBlock)) := by
  obtain ⟨result, hexecute, hsome⟩ := (h.serves n hn).archiveExecute
  by_cases hzero : n = 0
  · subst hzero
    obtain ⟨⟨storages, signedBlock⟩, hp⟩ := h.holds.genesis
    exact ⟨storages, signedBlock, Node.archiveExecute_eq_some.mpr hp⟩
  · obtain ⟨⟨storages, signedBlock⟩, rfl⟩ := Option.isSome_iff_exists.mp (hsome hzero)
    exact ⟨storages, signedBlock, hexecute⟩

theorem Complete.builds (h : facts.Complete node w)
    (hn : n ≤ w.main.blockchain.info.bestNumber) (cache : RuntimeVersionCache)
    (storages : StorageChanges) (signedBlock : SignedBlock) :
    ∃ msg cache', node.archiveBuild w cache n storages signedBlock = .ok (msg, cache') := by
  obtain ⟨storages', signedBlock', hexecute⟩ := h.executes hn
  have hblock := (Node.executeBlockAndIntoStorageChanges_eq_some.mp
    (Node.archiveExecute_eq_some.mp hexecute)).1
  obtain ⟨-, msg, cache', -, hbuild⟩ :=
    ((h.serves n hn).version signedBlock' hblock).archiveBuild cache storages signedBlock
  exact ⟨msg, cache', hbuild⟩

end ChainFacts

namespace Pipeline

variable {node : Node} {config : CliConfig} {world : World} {facts : ChainFacts}
  {s t : Pipeline} {e : Event}

def best (s : Pipeline) : BlockNumber := s.world.main.blockchain.info.bestNumber

def effort (s : Pipeline) : ℕ :=
  s.initializer.effort s.best + (s.executorQueue.map fun n ↦ remaining s.best n + 16).sum +
    s.executor.effort s.best + (s.comparerQueue.map fun n ↦ remaining s.best n + 3).sum +
    s.comparer.effort s.best + 8 * s.archiverQueue.length + s.archiver.task.effort

/-- The process runs, nothing fails and no block is added. -/
def Drains (s : Pipeline) (e : Event) : Prop :=
  s.Succeeds e ∧
    match e with
    | .backend _ | .crash => False
    | .comparer => s.comparer.GoesOn s.best
    | .initializer _ | .executor | .receive | .archiver _ => True

instance (s : Pipeline) (e : Event) : Decidable (s.Drains e) :=
  match e with
  | .backend _ | .crash => inferInstanceAs (Decidable (_ ∧ False))
  | .comparer => inferInstanceAs (Decidable (_ ∧ s.comparer.GoesOn s.best))
  | .initializer _ | .executor | .receive | .archiver _ => inferInstanceAs (Decidable (_ ∧ True))

theorem effort_step (hallowed : s.Drains e) (hstep : Step node config s e t) :
    t.effort < s.effort := by
  cases hstep with
  | backend | crash => exact hallowed.2.elim
  | initialized htask =>
      have hle := remaining_le_zero s.best (s.archiver.db.maxBlockNum.getD 0)
      simp only [effort, best, htask, InitializerTask.effort, List.map_append, List.sum_append,
        List.map_singleton, List.sum_singleton] at hle ⊢
      omega
  | initializerPanics message htask =>
      simp only [effort, best, htask, InitializerTask.effort]
      omega
  | executorReceives htask hqueue =>
      simp only [effort, best, htask, hqueue, ExecutorTask.effort, List.map_cons, List.sum_cons]
      omega
  | executorPanics message hpanic =>
      obtain ⟨n, htask, -⟩ | ⟨n, storages, signedBlock, htask, -⟩ := hpanic
      · simp only [effort, best, htask, ExecutorTask.effort]
        omega
      · simp only [effort, best, htask, ExecutorTask.effort]
        omega
  | genesisPassed htask | executorExecutes htask | executorBuilds htask =>
      simp only [effort, best, htask, ExecutorTask.effort]
      omega
  | executorSends htask =>
      simp only [effort, best, htask, ExecutorTask.effort, List.length_append,
        List.length_singleton]
      omega
  | executorNotifies htask =>
      simp only [effort, best, htask, ExecutorTask.effort, List.map_append, List.sum_append,
        List.map_singleton, List.sum_singleton]
      omega
  | comparerReceives htask hqueue =>
      simp only [effort, best, htask, hqueue, ComparerTask.effort, List.map_cons, List.sum_cons]
      omega
  | comparerAdvances htask hbest =>
      have hsucc := remaining_succ hbest
      simp only [effort, best, htask, ComparerTask.effort, List.map_append, List.sum_append,
        List.map_singleton, List.sum_singleton]
      omega
  | comparerDelays htask hbest =>
      have hdelaying := ComparerTask.effort_delaying_of_le hbest
      simp only [effort, best, htask, ComparerTask.effort_comparing, hdelaying]
      omega
  | comparerResends htask =>
      have hbest := hallowed.2
      simp only [htask, best, ComparerTask.GoesOn] at hbest
      have hdelaying := ComparerTask.effort_delaying_of_lt hbest
      simp only [effort, best, htask, hdelaying, ComparerTask.effort_waiting, List.map_append,
        List.sum_append, List.map_singleton, List.sum_singleton]
      omega
  | receives htask hqueue =>
      simp only [effort, best, htask, hqueue, ArchiveTask.effort, List.length_cons]
      omega
  | archives hstep =>
      have hlt := Notifier.effort_step hstep
      simp only [effort, best]
      omega

/-- Operations succeed unless the process crashes, and the chain that is served
only grows. -/
def Grows (node : Node) (facts : ChainFacts) (s : Pipeline) (e : Event) : Prop :=
  s.Succeeds e ∧ ∀ world, e = .backend world →
    facts.Complete node world ∧ s.best ≤ world.main.blockchain.info.bestNumber

theorem Grows.crashOnly (h : s.Grows node facts e) : s.CrashOnly node facts e :=
  ⟨h.1, fun world he ↦ (h.2 world he).1.holds⟩

theorem Drains.grows (h : s.Drains e) : s.Grows node facts e := by
  refine ⟨h.1, ?_⟩
  rintro world rfl
  exact h.2.elim

structure Live (s : Pipeline) : Prop where
  initializer : ∀ message, s.initializer ≠ .panicked message
  executor : ∀ message, s.executor ≠ .panicked message
  archiver : ∀ message, s.archiver.task ≠ .panicked message

/-- Nothing is stored or on its way above the best height. -/
structure Bounded (s : Pipeline) : Prop where
  stored : ∀ n, s.archiver.db.Stores n → n ≤ s.best
  onWay : ∀ q ∈ s.onWay, q ≤ s.best

theorem bounded_step (h : s.Bounded) (hbuilt : s.Built) (hgrows : s.Grows node facts e)
    (hconfig : config.resetForce = false) (hstep : Step node config s e t) : t.Bounded := by
  have hbest : s.best ≤ t.best := by
    cases hstep with
    | backend world => exact (hgrows.2 world rfl).2
    | _ => exact le_rfl
  refine ⟨?_, ?_⟩
  · intro n hn
    cases hstep with
    | archives hstep =>
        rcases Notifier.stores_of_step hstep hn with hn | ⟨msg, hmsg, rfl⟩
        · exact h.stored n hn
        · exact h.onWay _ (mem_onWay_of_msg hmsg)
    | _ => exact (h.stored n hn).trans hbest
  · intro q hq
    by_cases he : e = .crash
    · subst he
      cases hstep
      simp [start, hconfig, onWay, ahead, inFlight, requests, reports, Notifier.restart,
        ArchiveTask.msg?, ExecutorTask.requests, ExecutorTask.reports, ComparerTask.holds] at hq
    · rcases mem_onWay_of_step hbuilt he hstep hq with hq | ⟨-, rfl⟩ | ⟨number, -, hlt, rfl⟩
      · exact (h.onWay q hq).trans hbest
      · rcases hmax : s.archiver.db.maxBlockNum with _ | k
        · exact Nat.zero_le _
        · exact (h.stored k (Database.maxBlockNum_eq_some hmax).1).trans hbest
      · exact (Nat.succ_le_of_lt hlt).trans hbest

theorem live_step (h : s.Live) (hbounded : s.Bounded) (hcomplete : facts.Complete node s.world)
    (hsucceeds : s.Succeeds e) (hnext : next node config s e = some t) :
    t.Live := by
  have hrequest : ∀ n, n ∈ s.executor.requests → n ≤ s.best := by
    intro n hn
    apply hbounded.onWay
    simp [onWay, inFlight, requests, hn]
  cases step_of_next hnext with
  | crash =>
      refine ⟨?_, by simp [start], by simp [start, Notifier.restart]⟩
      cases hreset : config.resetForce <;> simp [start, hreset]
  | @initializerPanics reply message htask =>
      obtain rfl : reply = .ok := hsucceeds
      simp [next, runInitializer, htask] at hnext
  | executorPanics message hpanic =>
      rcases hpanic with ⟨n, htask, hexecute⟩ | ⟨n, storages, signedBlock, htask, hbuild⟩
      · obtain ⟨storages, signedBlock, hexecute'⟩ :=
          hcomplete.executes (hrequest n (by simp [htask, ExecutorTask.requests]))
        simp [hexecute] at hexecute'
      · obtain ⟨msg, cache, hbuild'⟩ := hcomplete.builds
          (hrequest n (by simp [htask, ExecutorTask.requests])) s.versionCache storages signedBlock
        simp [hbuild] at hbuild'
  | @archives reply archiver hstep =>
      refine ⟨h.initializer, h.executor, ?_⟩
      intro message hpanicked
      cases hstep with
      | @metadataPanics msg _ _ htask hread =>
          have hmsg : msg ∈ s.archiver.task.msg? := by simp [htask, ArchiveTask.msg?]
          obtain ⟨metadata, hmetadata⟩ :=
            hcomplete.metadata _ (hbounded.onWay _ (mem_onWay_of_msg hmsg))
          exact hread metadata hmetadata
      | _ => simp at hpanicked
  | initialized => exact ⟨by simp, h.executor, h.archiver⟩
  | receives => exact ⟨h.initializer, h.executor, by simp⟩
  | executorReceives | executorExecutes | executorBuilds | executorSends | executorNotifies
  | genesisPassed => exact ⟨h.initializer, by simp, h.archiver⟩
  | backend | comparerReceives | comparerAdvances | comparerDelays | comparerResends =>
      exact ⟨h.initializer, h.executor, h.archiver⟩

/-! ## Runs of a chain that is served -/

structure ServedInv (node : Node) (facts : ChainFacts) (s : Pipeline) : Prop where
  crash : s.CrashInv node facts
  delivered : ∃ heights, s.Delivered node facts heights
  complete : facts.Complete node s.world
  bounded : s.Bounded
  live : s.Live

theorem servedInv_of_reaches (hconfig : config.resetForce = false)
    (hcollision : RuntimeVersionCache.NoCollision node.reader (Set.range facts.code))
    (hworld : facts.Complete node world)
    (hrun : Reaches node config (Grows node facts) (boot config world) s) :
    s.ServedInv node facts := by
  induction hrun with
  | refl =>
      have hnil : (boot config world).onWay = [] := by
        simp [boot, start, hconfig, onWay, ahead, inFlight, requests, reports, Notifier.restart,
          ArchiveTask.msg?, ExecutorTask.requests, ExecutorTask.reports, ComparerTask.holds]
      refine ⟨crashInv_start hconfig hworld.holds Database.UpTo.empty,
        ⟨[], delivered_boot hconfig⟩, hworld, ⟨?_, ?_⟩, ?_⟩
      · intro n hn
        exact absurd hn (Database.not_stores_empty n)
      · simp [hnil]
      · exact ⟨by simp [boot, start, hconfig], by simp [boot, start],
          by simp [boot, start, Notifier.restart]⟩
  | tail hrun hlast ih =>
      obtain ⟨hcrash, ⟨heights, hdelivered⟩, hcomplete, hbounded, hlive⟩ := ih
      obtain ⟨e, he, hnext⟩ := hlast
      have hstep := step_of_next hnext
      refine ⟨crashInv_step hconfig hcollision hcrash (sorted_ahead hrun) he.crashOnly hstep,
        delivered_step hconfig hcrash (sorted_onWay hrun) (neverBelow_of_reaches hconfig hrun).1
          he.1 hdelivered hstep, ?_, bounded_step hbounded hcrash.backed.built he hconfig hstep,
        live_step hlive hbounded hcomplete he.1 hnext⟩
      cases hstep with
      | backend world => exact (he.2 world rfl).1
      | _ => exact hcomplete

/-! ## Where nothing is left to do -/

/-- The database takes the insert that is pending. -/
theorem accepts_of_served (h : s.ServedInv node facts) : s.archiver.Accepts := by
  obtain ⟨k, -, hcourse⟩ := h.crash.tables
  have hbest : ∀ msg ∈ s.archiver.task.msg?, msg.model.blockNum ≤ s.best :=
    fun msg hmsg ↦ h.bounded.onWay _ (mem_onWay_of_msg hmsg)
  have hknown := h.crash.faithful.flow.current
  unfold Notifier.Accepts
  split
  · rename_i msg metadata htask
    obtain ⟨n, rfl⟩ := hknown msg (by simp [htask, ArchiveTask.msg?])
    have hmsg : facts.message node n ∈ s.archiver.task.msg? := by simp [htask, ArchiveTask.msg?]
    have hversion := h.complete.version n (hbest _ hmsg)
    have hversion' : (metadataModel (facts.message node n) metadata).specVersion < 2147483648 :=
      hversion
    unfold Database.insertMetadata
    rw [if_pos hversion']
    simp
  · rename_i msg htask
    obtain ⟨n, rfl⟩ := hknown msg (by simp [htask, ArchiveTask.msg?])
    have hmsg : facts.message node n ∈ s.archiver.task.msg? := by simp [htask, ArchiveTask.msg?]
    obtain ⟨hnumber, hpartition⟩ := h.complete.partition n (hbest _ hmsg)
    simp only [Notifier.OnCourse, htask] at hcourse
    unfold Database.insertBlock
    rw [dif_pos ⟨hcourse.2, hnumber, hpartition⟩]
    simp
  · trivial

theorem waiting_of_runExecutor (hlive : ∀ message, s.executor ≠ .panicked message)
    (hnone : s.runExecutor node = none) : s.executor = .waiting ∧ s.executorQueue = [] := by
  unfold runExecutor at hnone
  split at hnone
  · rename_i htask
    split at hnone
    · rename_i hqueue
      exact ⟨htask, hqueue⟩
    · simp at hnone
  · split at hnone <;> simp at hnone
  · split at hnone <;> simp at hnone
  · simp at hnone
  · simp at hnone
  · rename_i message htask
    exact absurd htask (hlive message)

/-- No task can take a step, and the timer of the comparer need not fire. -/
structure Idle (s : Pipeline) : Prop where
  initializer : s.initializer = .finished
  archiver : s.archiver.task = .waiting
  archiverQueue : s.archiverQueue = []
  requests : s.requests = []
  executor : s.executor.reports = []
  comparer : (s.comparer = .waiting ∧ s.comparerQueue = []) ∨
    ∃ number, s.comparer = .delaying number ∧ s.best ≤ number

theorem idle_of_stuck (hstuck : Transition.Stuck (next node config) Drains s)
    (h : s.ServedInv node facts) : s.Idle := by
  have harchiver : s.archiver.task = .waiting := by
    by_contra hbusy
    obtain ⟨a, ha⟩ := @Notifier.proceed_ok s.archiver (node.metadata s.world) hbusy h.live.archiver
    have hnone := hstuck (.archiver .ok) ⟨⟨rfl, accepts_of_served h⟩, trivial⟩
    simp [next, runArchiver, ha] at hnone
  have hqueue : s.archiverQueue = [] := by
    have hnone := hstuck .receive ⟨trivial, trivial⟩
    rcases hqueue : s.archiverQueue with _ | ⟨msg, queue⟩
    · rfl
    · simp [next, receiveMsg, hqueue, Notifier.receive, harchiver] at hnone
  have hinitializer : s.initializer = .finished := by
    have hnone := hstuck (.initializer .ok) ⟨rfl, trivial⟩
    rcases hinit : s.initializer with _ | _ | message
    · simp [next, runInitializer, hinit] at hnone
    · rfl
    · exact absurd hinit (h.live.initializer message)
  have hexecutor : s.executor = .waiting ∧ s.executorQueue = [] := by
    have hnone := hstuck .executor ⟨trivial, trivial⟩
    exact waiting_of_runExecutor h.live.executor hnone
  refine ⟨hinitializer, harchiver, hqueue, ?_, ?_, ?_⟩
  · simp [requests, hexecutor, ExecutorTask.requests]
  · simp [hexecutor, ExecutorTask.reports]
  · rcases hcomparer : s.comparer with _ | number | number
    · have hnone := hstuck .comparer ⟨trivial, by simp [hcomparer, ComparerTask.GoesOn]⟩
      rcases hcomparerQueue : s.comparerQueue with _ | ⟨number, queue⟩
      · exact Or.inl ⟨rfl, rfl⟩
      · simp [next, runComparer, hcomparer, hcomparerQueue] at hnone
    · have hnone := hstuck .comparer ⟨trivial, by simp [hcomparer, ComparerTask.GoesOn]⟩
      simp only [next, runComparer, hcomparer] at hnone
      split at hnone <;> simp at hnone
    · refine Or.inr ⟨number, rfl, ?_⟩
      by_contra hlt
      have hnone := hstuck .comparer ⟨trivial, by simpa [hcomparer, ComparerTask.GoesOn] using hlt⟩
      simp [next, runComparer, hcomparer] at hnone

/-- All heights up to the best one are stored and published. -/
def CaughtUp (node : Node) (facts : ChainFacts) (s : Pipeline) : Prop :=
  ∀ n ≤ s.best, s.archiver.db.Stores n ∧ (facts.message node n).payload ∈ s.archiver.topic

theorem caughtUp_of_idle (hrun : Reaches node config (Grows node facts) (boot config world) s)
    (h : s.ServedInv node facts) (hidle : s.Idle) : s.CaughtUp node facts := by
  obtain ⟨world', archiver, hsession⟩ := session_of_reaches hrun
  obtain ⟨⟨l, -, hsim⟩, -⟩ := session_invariant hsession
  obtain ⟨heights, hdelivered⟩ := h.delivered
  have hahead : s.ahead = [] := by simp [ahead_of_waiting hidle.archiver, hidle.archiverQueue]
  -- the token is a report that the comparer holds
  obtain ⟨number, hcomparer, hbest⟩ : ∃ number, s.comparer = .delaying number ∧
      s.best ≤ number := by
    rcases hidle.comparer with ⟨hwaiting, hcomparerQueue⟩ | hdelaying
    · exfalso
      have hreports : s.reports = [] := by
        simp [reports, hwaiting, hcomparerQueue, hidle.executor, ComparerTask.holds]
      have hcarries := hsim.carries
      cases htoken : l.token with
      | unsent => simp [htoken, Carries, hidle.initializer] at hcarries
      | request n => simp [htoken, Carries, hidle.requests] at hcarries
      | report n => simp [htoken, Carries, hreports] at hcarries
      | lost =>
          rw [htoken] at hcarries
          obtain ⟨message, hpanicked⟩ := hcarries.2.2.2 hidle.initializer
          exact h.live.executor message hpanicked
    · exact hdelaying
  have hreported : number ∈ s.reports := by simp [reports, hcomparer, ComparerTask.holds]
  have honWay : number ∈ s.onWay := List.mem_append_right _ (List.mem_append_right _ hreported)
  have hpublished : ∀ n, s.Handled heights n → n ∈ heights := by
    intro n hn
    rcases hn with hn | hn
    · exact hn
    · simp [hahead] at hn
  have hall : ∀ n ≤ number, n ∈ heights := by
    intro n hn
    rcases hn.lt_or_eq with hlt | rfl
    · exact hpublished n (hdelivered.below h.live.archiver number honWay n hlt)
    · exact hpublished n (hdelivered.reported h.live.archiver n hreported)
  intro n hn
  have hmem := hall n (hn.trans hbest)
  refine ⟨hdelivered.stored n hmem, ?_⟩
  rw [hdelivered.topic]
  exact List.mem_map.mpr ⟨n, hmem, rfl⟩

/-- From every state that a run reaches, with crashes or without, the tasks
come to rest after a bounded number of steps in any order if nothing fails
and no block is added, and at rest all heights up to the best one are stored
and published. -/
theorem catches_up (hconfig : config.resetForce = false)
    (hcollision : RuntimeVersionCache.NoCollision node.reader (Set.range facts.code))
    (hworld : facts.Complete node world)
    (hrun : Reaches node config (Grows node facts) (boot config world) s) :
    (∀ es t, Transition.execute (next node config) Drains s es = some t → es.length ≤ s.effort) ∧
      (∀ t, Reaches node config Drains s t → Transition.Stuck (next node config) Drains t →
        t.CaughtUp node facts) ∧
      ∃ t, Reaches node config Drains s t ∧ t.CaughtUp node facts := by
  have hdecreases : ∀ s e t, Drains s e → next node config s e = some t → t.effort < s.effort :=
    fun s e t he hnext ↦ effort_step he (step_of_next hnext)
  have hrest : ∀ t, Reaches node config Drains s t → Transition.Stuck (next node config) Drains t →
      t.CaughtUp node facts := by
    intro t hmore hstuck
    have hrun' : Reaches node config (Grows node facts) (boot config world) t :=
      hrun.trans (hmore.mono fun s e he ↦ he.grows)
    have hinv := servedInv_of_reaches hconfig hcollision hworld hrun'
    exact caughtUp_of_idle hrun' hinv (idle_of_stuck hstuck hinv)
  refine ⟨?_, hrest, ?_⟩
  · intro es t h
    have hle := Transition.length_add_le_of_execute hdecreases h
    omega
  · obtain ⟨t, hmore, hstuck⟩ := Transition.exists_stuck hdecreases s
    exact ⟨t, hmore, hrest t hmore hstuck⟩

theorem Sample.upgradeFacts_complete :
    upgradeFacts.Complete Sample.node (Sample.world [(5, 2)]) := by
  have hdistinct : (Sample.branch [(5, 2)]).Distinct := by
    unfold Branch.Distinct
    decide +kernel
  have hbest : ∀ n ≤ (Sample.world [(5, 2)]).main.blockchain.info.bestNumber, n = 0 ∨ n = 1 := by
    intro n hn
    rcases Nat.le_one_iff_eq_zero_or_eq_one.mp (show n ≤ 1 from hn) with rfl | rfl
    · exact Or.inl rfl
    · exact Or.inr rfl
  refine ⟨Sample.upgradeFacts_holdIn, ?_, ?_, ?_, ?_⟩
  · intro n hn
    obtain ⟨block, hat⟩ : ∃ block, (Sample.branch [(5, 2)]).at? n = some block :=
      ⟨_, List.getElem?_eq_getElem (Nat.lt_succ_of_le hn)⟩
    obtain ⟨version, -, hcode⟩ := Sample.code_of_mem_blocks (List.mem_of_getElem? hat)
    apply Branch.world_serves hdistinct hat ⟨[version], _, hcode, rfl⟩
    simp [Sample.branch, Sample.blocks, Sample.block, Sample.state]
  · intro n hn
    rcases hbest n hn with rfl | rfl
    · exact ⟨_, rfl⟩
    · exact ⟨_, rfl⟩
  · intro n hn
    rcases hbest n hn with rfl | rfl <;> decide +kernel
  · intro n hn
    rcases hbest n hn with rfl | rfl <;> decide +kernel

theorem Sample.grows : ∀ s, ∀ e, s.Succeeds e ∧ e.isBackend = false →
    Grows Sample.node Sample.upgradeFacts s e := by
  rintro s e ⟨hsucceeds, hbackend⟩
  refine ⟨hsucceeds, ?_⟩
  rintro world rfl
  simp [Event.isBackend] at hbackend

/-- Block one is on its way when the process goes down. -/
theorem catches_up_after_crashes :
    ∃ s, Reaches Sample.node ⟨0, false⟩ (Grows Sample.node Sample.upgradeFacts)
        (boot ⟨0, false⟩ (Sample.world [(5, 2)])) s ∧ ¬ s.archiver.db.Stores 1 ∧
      ∃ t, Reaches Sample.node ⟨0, false⟩ Drains s t ∧
        t.CaughtUp Sample.node Sample.upgradeFacts := by
  have hcompute : (Transition.execute (next Sample.node ⟨0, false⟩)
      (fun s e ↦ s.Succeeds e ∧ e.isBackend = false)
      (boot ⟨0, false⟩ (Sample.world [(5, 2)])) Sample.crashEvents).map
      (fun s ↦ decide (s.archiver.db.Stores 1)) = some false := by
    decide +kernel
  obtain ⟨s, hrun, hview⟩ := Transition.Reaches.exists_of_execute
    (fun a e _ h ↦ Sample.grows a e h) hcompute
  refine ⟨s, hrun, of_decide_eq_false hview, ?_⟩
  exact (catches_up rfl Sample.upgradeFacts_noCollision Sample.upgradeFacts_complete hrun).2.2

end Pipeline

end SubArchive
