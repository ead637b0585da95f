import Mathlib.Data.List.Chain
import SubArchive.Token

/-!
# Holes in the archive

The archiver stores heights in the order in which they were sent, the comparer
moves on without waiting for it, and a restart resumes at the largest stored
height.  A height is lost when its message is dropped, or was never sent, and
a larger one is on its way.  As long as that does not happen the stored heights
have no hole.
-/

namespace SubArchive

namespace Pipeline

variable {node : Node} {config : CliConfig} {world : World} {allowed : Pipeline → Event → Prop}
  {s t : Pipeline} {e : Event} {n : BlockNumber}

/-! ## Sessions of a run -/

theorem session_of_reaches {archiver : Notifier}
    (hrun : Reaches node config allowed (start config world archiver) s) :
    ∃ world archiver, Reaches node config InSession (start config world archiver) s := by
  induction hrun with
  | refl => exact ⟨world, archiver, .refl⟩
  | @tail a b _ hlast ih =>
      obtain ⟨world', archiver, hsession⟩ := ih
      obtain ⟨e, -, hnext⟩ := hlast
      by_cases he : e = .crash
      · subst he
        cases hnext
        exact ⟨_, _, .refl⟩
      · exact ⟨world', archiver, hsession.tail ⟨e, he, hnext⟩⟩

/-- The heights of the message the archiver is at work on and of those that
wait for it. -/
def ahead (s : Pipeline) : List BlockNumber :=
  (s.archiver.task.msg?.toList ++ s.archiverQueue).map fun msg ↦ msg.model.blockNum

theorem Fifo.ahead_suffix (h : s.Fifo) : s.ahead <:+ s.heights := by
  obtain ⟨received, harchived, hcurrent⟩ := h
  rw [ahead, heights, harchived]
  apply List.IsSuffix.map _
  cases hmsg : s.archiver.task.msg? with
  | none => simp
  | some msg =>
      obtain ⟨before, rfl⟩ : ∃ before, received = before ++ [msg] := by
        have hlast : received.getLast? = some msg := hcurrent msg hmsg
        exact ⟨received.dropLast, (List.dropLast_append_getLast? msg hlast).symm⟩
      simp

theorem Loop.Follows.le {bests : List BlockNumber} {h h' : BlockNumber}
    (hfollows : Loop.Follows bests h h') : h ≤ h' := by
  rcases hfollows with rfl | ⟨rfl, -⟩
  · exact le_rfl
  · exact Nat.le_succ h

theorem sorted_ahead {archiver : Notifier}
    (hrun : Reaches node config allowed (start config world archiver) s) :
    s.ahead.Pairwise (· ≤ ·) := by
  obtain ⟨world', archiver, hsession⟩ := session_of_reaches hrun
  obtain ⟨⟨l, hl, hsim⟩, -, hfifo, -⟩ := session_invariant hsession
  have hchain : s.heights.IsChain (· ≤ ·) := by
    rw [← hsim.heights]
    exact (Loop.inv_of_reaches hl).ordered.imp fun _ _ h ↦ Loop.Follows.le h
  exact (List.isChain_iff_pairwise.mp hchain).sublist hfifo.ahead_suffix.sublist

/-! ## Heights that are not lost -/

/-- The archiver drops an error only when the height is stored, when another
message for it waits, or when nothing above it is queued or in flight. -/
def DropsSafely (s : Pipeline) : Prop :=
  match s.archiver.task with
  | .failed msg _ =>
      s.archiver.db.Stores msg.model.blockNum ∨
      msg.model.blockNum ∈ s.archiverQueue.map (fun msg ↦ msg.model.blockNum) ∨
      ∀ q ∈ s.archiverQueue.map (fun msg ↦ msg.model.blockNum) ++ s.inFlight,
        q ≤ msg.model.blockNum
  | _ => True

/-- The comparer moves on from a height only when it is stored or its message
is at the archiver. -/
def MovesOnSafely (s : Pipeline) : Prop :=
  match s.comparer, s.archiver.task with
  | .comparing _, .panicked _ => True
  | .comparing number, _ =>
      number < s.world.main.blockchain.info.bestNumber →
        s.archiver.db.Stores number ∨ number ∈ s.ahead
  | _, _ => True

def LosesNoHeight (s : Pipeline) : Event → Prop
  | .archiver _ => s.DropsSafely
  | .comparer => s.MovesOnSafely
  | _ => True

instance (s : Pipeline) : Decidable s.DropsSafely := by
  unfold DropsSafely
  cases s.archiver.task <;> infer_instance

instance (s : Pipeline) : Decidable s.MovesOnSafely := by
  unfold MovesOnSafely
  cases s.comparer <;> cases s.archiver.task <;> infer_instance

instance (s : Pipeline) (e : Event) : Decidable (s.LosesNoHeight e) := by
  unfold LosesNoHeight
  cases e <;> infer_instance

/-- The stored heights are downward closed, and below every height on its way
each height is stored or on its way to the archiver. -/
structure Backed (s : Pipeline) : Prop where
  stored : ∀ n, s.archiver.db.Stores n → ∀ m < n, s.archiver.db.Stores m
  below : (∀ message, s.archiver.task ≠ .panicked message) →
    ∀ q ∈ s.ahead ++ s.inFlight, ∀ m < q, s.archiver.db.Stores m ∨ m ∈ s.ahead
  inserted : ∀ msg, s.archiver.task = .sendBlock msg → s.archiver.db.Stores msg.model.blockNum
  built : s.Built

theorem backed_start {archiver : Notifier} (hconfig : config.resetForce → config.blockNum = 0)
    (hstored : ∀ n, archiver.db.Stores n → ∀ m < n, archiver.db.Stores m) :
    Backed (start config world archiver) where
  stored := hstored
  below := by
    intro _ q hq m hm
    obtain ⟨hreset, rfl⟩ : config.resetForce = true ∧ q = config.blockNum := by
      simpa [start, ahead, inFlight, requests, reports, Notifier.restart, ArchiveTask.msg?,
        ExecutorTask.requests, ExecutorTask.reports, ComparerTask.holds] using hq
    exact absurd (hconfig hreset ▸ hm) (Nat.not_lt_zero m)
  inserted := by simp [start, Notifier.restart]
  built := by simp [Built, start]

theorem Backed.congr (h : s.Backed) (harchiver : t.archiver = s.archiver)
    (hqueue : t.archiverQueue = s.archiverQueue)
    (hflight : (∀ message, s.archiver.task ≠ .panicked message) →
      ∀ q ∈ t.inFlight, ∀ m < q, s.archiver.db.Stores m ∨ m ∈ s.ahead)
    (hbuilt : t.Built) : t.Backed where
  stored := by
    rw [harchiver]
    exact h.stored
  below := by
    have hahead : t.ahead = s.ahead := by rw [ahead, ahead, harchiver, hqueue]
    intro hlive q hq m hm
    rw [harchiver] at hlive
    rw [hahead] at hq
    rw [hahead, harchiver]
    rcases List.mem_append.mp hq with hq | hq
    · exact h.below hlive q (List.mem_append_left _ hq) m hm
    · exact hflight hlive q hq m hm
  inserted := by
    rw [harchiver]
    exact h.inserted
  built := hbuilt

/-- What a step of the archiver does to the stored heights and to its
message. -/
inductive BlockEffect (a b : Notifier) : Prop
  | keeps (msg : ArchiveSendMsg) (hbefore : a.task.msg? = some msg)
      (hafter : b.task.msg? = some msg) (hstores : ∀ n, b.db.Stores n ↔ a.db.Stores n)
      (hunsent : ∀ m, b.task ≠ .sendBlock m)
  | stores (msg : ArchiveSendMsg) (hbefore : a.task.msg? = some msg)
      (hafter : b.task.msg? = some msg)
      (hstores : ∀ n, b.db.Stores n ↔ n = msg.model.blockNum ∨ a.db.Stores n)
  | finishes (msg : ArchiveSendMsg) (hbefore : a.task = .sendBlock msg)
      (hafter : b.task = .waiting) (hdb : b.db = a.db)
  | drops (msg : ArchiveSendMsg) (error : Error) (hbefore : a.task = .failed msg error)
      (hafter : b.task = .waiting) (hdb : b.db = a.db)
  | panics (message : Panic) (hafter : b.task = .panicked message) (hdb : b.db = a.db)

theorem blockEffect_of_step {metadataAt : BlockNumber → Except Panic (Except Error Bytes)}
    {a b : Notifier} {reply : Reply} (hstep : Notifier.Step metadataAt a reply b) :
    BlockEffect a b := by
  cases hstep with
  | @metadataExists msg htask | @metadataMissing msg htask | @checkFails msg _ htask
  | @metadataRead msg _ _ htask | @metadataInsertFails msg _ _ _ htask
  | @metadataSent msg _ htask | @metadataSendLost msg _ _ htask | @metadataSendFails msg _ _ htask
  | @blockInsertFails msg _ _ htask | @blockSendLost msg _ htask | @blockSendFails msg _ htask =>
      exact .keeps msg (by simp [htask, ArchiveTask.msg?]) (by simp [ArchiveTask.msg?])
        (fun _ ↦ Iff.rfl) (by simp)
  | @metadataInserted msg _ _ htask hinsert | @metadataInsertLost msg _ _ _ htask hinsert =>
      exact .keeps msg (by simp [htask, ArchiveTask.msg?]) (by simp [ArchiveTask.msg?])
        (Database.stores_insertMetadata hinsert) (by simp)
  | @blockInserted msg _ htask hinsert | @blockInsertLost msg _ _ htask hinsert =>
      exact .stores msg (by simp [htask, ArchiveTask.msg?]) (by simp [ArchiveTask.msg?])
        (Database.stores_insertBlock hinsert)
  | metadataPanics message => exact .panics message rfl rfl
  | @blockSent msg htask => exact .finishes msg htask rfl rfl
  | @errorDropped msg error _ htask => exact .drops msg error htask rfl rfl

theorem ahead_of_msg {msg : ArchiveSendMsg} (h : s.archiver.task.msg? = some msg) :
    s.ahead = msg.model.blockNum :: s.archiverQueue.map fun msg ↦ msg.model.blockNum := by
  simp [ahead, h]

theorem ahead_of_waiting (h : s.archiver.task = .waiting) :
    s.ahead = s.archiverQueue.map fun msg ↦ msg.model.blockNum := by
  simp [ahead, h, ArchiveTask.msg?]

theorem live_of_msg {a : Notifier} {msg : ArchiveSendMsg} (h : a.task.msg? = some msg) :
    ∀ message, a.task ≠ .panicked message := by
  intro message htask
  simp [htask, ArchiveTask.msg?] at h

/-- The archiver turns to the next message, leaving no height behind that
something on its way needs. -/
theorem backed_next {archiver : Notifier} {msg : ArchiveSendMsg} (h : s.Backed)
    (hbefore : s.archiver.task.msg? = some msg) (hafter : archiver.task = .waiting)
    (hdb : archiver.db = s.archiver.db)
    (hleft : ∀ q ∈ s.archiverQueue.map (fun msg ↦ msg.model.blockNum) ++ s.inFlight,
      msg.model.blockNum < q → s.archiver.db.Stores msg.model.blockNum ∨
        msg.model.blockNum ∈ s.archiverQueue.map (fun msg ↦ msg.model.blockNum)) :
    Backed { s with archiver } := by
  have hahead := ahead_of_msg hbefore
  have hahead' : ahead { s with archiver } = s.archiverQueue.map fun msg ↦ msg.model.blockNum :=
    ahead_of_waiting hafter
  have hlive := live_of_msg hbefore
  refine ⟨?_, ?_, ?_, h.built⟩
  · rw [hdb]
    exact h.stored
  · intro _ q hq m hm
    rw [hahead'] at hq ⊢
    rw [hdb]
    have hq' : q ∈ s.ahead ++ s.inFlight := by
      rw [hahead, List.cons_append]
      exact List.mem_cons_of_mem _ hq
    have hbelow := h.below hlive q hq' m hm
    rw [hahead, List.mem_cons] at hbelow
    rcases hbelow with hstored | rfl | hrest
    · exact Or.inl hstored
    · exact hleft q hq hm
    · exact Or.inr hrest
  · intro m hm
    simp [hafter] at hm

theorem Backed.stored_below {rest : List BlockNumber} (h : s.Backed)
    (hsorted : s.ahead.Pairwise (· ≤ ·))
    (hlive : ∀ message, s.archiver.task ≠ .panicked message) (hahead : s.ahead = n :: rest) :
    ∀ m < n, s.archiver.db.Stores m := by
  intro m hm
  have hhead : n ∈ s.ahead ++ s.inFlight := by simp [hahead]
  rcases h.below hlive n hhead m hm with hstored | hmem
  · exact hstored
  · rw [hahead, List.pairwise_cons] at hsorted
    rw [hahead, List.mem_cons] at hmem
    rcases hmem with rfl | hrest
    · exact absurd hm (lt_irrefl _)
    · exact absurd hm (not_lt.mpr (hsorted.1 m hrest))

theorem backed_archives {archiver : Notifier} (h : s.Backed) (hsorted : s.ahead.Pairwise (· ≤ ·))
    (hdrops : s.DropsSafely) (heffect : BlockEffect s.archiver archiver) :
    Backed { s with archiver } := by
  cases heffect with
  | keeps msg hbefore hafter hstores hunsent =>
      have hahead : ahead { s with archiver } = s.ahead := by
        rw [ahead_of_msg hbefore, ahead_of_msg (s := { s with archiver }) hafter]
      have hlive := live_of_msg hbefore
      refine ⟨?_, ?_, fun m hm ↦ absurd hm (hunsent m), h.built⟩
      · intro n hn m hm
        exact (hstores m).mpr (h.stored n ((hstores n).mp hn) m hm)
      · intro _ q hq m hm
        rw [hahead] at hq ⊢
        exact (h.below hlive q hq m hm).imp_left (hstores m).mpr
  | stores msg hbefore hafter hstores =>
      have hahead := ahead_of_msg hbefore
      have hahead' : ahead { s with archiver } = s.ahead := by
        rw [hahead, ahead_of_msg (s := { s with archiver }) hafter]
      have hlive := live_of_msg hbefore
      have hbelow := h.stored_below hsorted hlive hahead
      refine ⟨?_, ?_, ?_, h.built⟩
      · intro n hn m hm
        rw [hstores] at hn ⊢
        rcases hn with rfl | hn
        · exact Or.inr (hbelow m hm)
        · exact Or.inr (h.stored n hn m hm)
      · intro _ q hq m hm
        rw [hahead'] at hq ⊢
        exact (h.below hlive q hq m hm).imp_left fun hm' ↦ (hstores m).mpr (Or.inr hm')
      · intro m hm
        have heq : m = msg := by
          change archiver.task = .sendBlock m at hm
          rw [hm] at hafter
          exact Option.some.inj hafter
        exact (hstores _).mpr (Or.inl (congrArg (fun msg ↦ msg.model.blockNum) heq))
  | finishes msg hbefore hafter hdb =>
      have hmsg : s.archiver.task.msg? = some msg := by rw [hbefore, ArchiveTask.msg?]
      apply backed_next h hmsg hafter hdb
      intro _ _ _
      exact Or.inl (h.inserted msg hbefore)
  | drops msg error hbefore hafter hdb =>
      have hmsg : s.archiver.task.msg? = some msg := by rw [hbefore, ArchiveTask.msg?]
      apply backed_next h hmsg hafter hdb
      intro q hq hlt
      simp only [DropsSafely, hbefore] at hdrops
      rcases hdrops with hstored | hwaits | hnothing
      · exact Or.inl hstored
      · exact Or.inr hwaits
      · exact absurd hlt (not_lt.mpr (hnothing q hq))
  | panics message hafter hdb =>
      refine ⟨?_, ?_, ?_, h.built⟩
      · simpa [hdb] using h.stored
      · intro hlive
        exact absurd hafter (hlive message)
      · simp [hafter]

theorem mem_inFlight_of_step (he : e ≠ .crash) (hstep : Step node config s e t) {q : BlockNumber}
    (hq : q ∈ t.inFlight) :
    q ∈ s.inFlight ∨
    (s.initializer = .starting ∧ q = s.archiver.db.maxBlockNum.getD 0) ∨
    ∃ number, s.comparer = .comparing number ∧ e = .comparer ∧
      number < s.world.main.blockchain.info.bestNumber ∧ q = number + 1 := by
  simp only [inFlight, requests, reports, List.mem_append] at hq ⊢
  cases hstep with
  | crash => exact absurd rfl he
  | initialized htask =>
      simp only [List.mem_append, List.mem_singleton] at hq
      tauto
  | executorPanics message hpanic =>
      simp only [ExecutorTask.requests, ExecutorTask.reports, List.not_mem_nil] at hq
      tauto
  | @comparerAdvances number htask hbest =>
      by_cases hnext : q = number + 1
      · exact Or.inr (Or.inr ⟨number, htask, rfl, hbest, hnext⟩)
      · simp only [List.mem_append, List.mem_singleton, ComparerTask.holds, List.not_mem_nil] at hq
        tauto
  | executorReceives htask hqueue | comparerReceives htask hqueue =>
      apply Or.inl
      simpa [htask, hqueue, ExecutorTask.requests, ExecutorTask.reports, ComparerTask.holds,
        or_assoc] using hq
  | genesisPassed htask | executorExecutes htask | executorBuilds htask | executorSends htask
  | executorNotifies htask | comparerDelays htask | comparerResends htask =>
      simp only [htask, ExecutorTask.requests, ExecutorTask.reports, ComparerTask.holds,
        List.mem_append, List.mem_singleton, List.not_mem_nil] at hq ⊢
      tauto
  | backend | initializerPanics | receives | archives => exact Or.inl hq

theorem backed_inFlight (h : s.Backed) (he : e ≠ .crash) (hsafe : s.LosesNoHeight e)
    (hstep : Step node config s e t)
    (hlive : ∀ message, s.archiver.task ≠ .panicked message) :
    ∀ q ∈ t.inFlight, ∀ m < q, s.archiver.db.Stores m ∨ m ∈ s.ahead := by
  intro q hq m hm
  rcases mem_inFlight_of_step he hstep hq with hq | ⟨-, rfl⟩ | ⟨number, htask, rfl, hbest, rfl⟩
  · exact h.below hlive q (List.mem_append_right _ hq) m hm
  · rcases hmax : s.archiver.db.maxBlockNum with _ | k
    · simp [hmax] at hm
    · have hstored : s.archiver.db.Stores k := (Database.maxBlockNum_eq_some hmax).1
      exact Or.inl (h.stored k hstored m (by simpa [hmax] using hm))
  · have hmoves : s.archiver.db.Stores number ∨ number ∈ s.ahead := by
      simp only [LosesNoHeight, MovesOnSafely, htask] at hsafe
      exact hsafe hbest
    rcases Nat.lt_succ_iff_lt_or_eq.mp hm with hlt | rfl
    · have hnumber : number ∈ s.ahead ++ s.inFlight := by
        simp [inFlight, reports, htask, ComparerTask.holds]
      exact h.below hlive number hnumber m hlt
    · exact hmoves

theorem backed_step (hconfig : config.resetForce → config.blockNum = 0) (h : s.Backed)
    (hsorted : s.ahead.Pairwise (· ≤ ·)) (hsafe : s.LosesNoHeight e)
    (hstep : Step node config s e t) : t.Backed := by
  have hbuilt := built_step h.built hstep
  have hflight := fun he ↦ backed_inFlight h he hsafe hstep
  cases hstep with
  | crash => exact backed_start hconfig h.stored
  | archives hstep => exact backed_archives h hsorted hsafe (blockEffect_of_step hstep)
  | @executorSends number msg htask =>
      have hnumber : msg.model.blockNum = number := h.built number msg htask
      refine ⟨h.stored, ?_, h.inserted, hbuilt⟩
      intro hlive q hq m hm
      have hahead : ∀ q, (q ∈ s.ahead ∨ q = number) ↔ q ∈ ahead { s with
          archiverQueue := s.archiverQueue ++ [msg]
          archived := s.archived ++ [msg]
          executor := .notifying number } := by
        intro q
        simp [ahead, hnumber, or_assoc]
      rw [← hahead]
      rw [List.mem_append, ← hahead] at hq
      have hbelow : s.archiver.db.Stores m ∨ m ∈ s.ahead := by
        rcases hq with (hq | rfl) | hq
        · exact h.below hlive q (List.mem_append_left _ hq) m hm
        · refine h.below hlive q ?_ m hm
          simp [inFlight, requests, htask, ExecutorTask.requests]
        · exact hflight (by simp) hlive q hq m hm
      tauto
  | @receives msg queue htask hqueue =>
      have hahead : ahead { s with
          archiver := { s.archiver with task := .checkMetadata msg }
          archiverQueue := queue } = s.ahead := by
        simp [ahead, htask, hqueue, ArchiveTask.msg?]
      refine ⟨h.stored, ?_, by simp, h.built⟩
      intro _ q hq m hm
      rw [hahead] at hq ⊢
      exact h.below (by simp [htask]) q hq m hm
  | backend | initialized | initializerPanics | executorReceives | executorPanics | genesisPassed
  | executorExecutes | executorBuilds | executorNotifies | comparerReceives | comparerAdvances
  | comparerDelays | comparerResends => exact h.congr rfl rfl (hflight (by simp)) hbuilt

/-! ## The stored heights -/

theorem backed_of_reaches (hconfig : config.resetForce → config.blockNum = 0)
    (hrun : Reaches node config LosesNoHeight (boot config world) s) : s.Backed := by
  induction hrun with
  | refl => exact backed_start hconfig fun n hn ↦ absurd hn (Database.not_stores_empty n)
  | tail hrun hlast ih =>
      obtain ⟨e, he, hnext⟩ := hlast
      exact backed_step hconfig ih (sorted_ahead hrun) he (step_of_next hnext)

/-- In a run from empty tables that loses no height, whatever fails or crashes,
the stored heights are downward closed. -/
theorem no_hole (hconfig : config.resetForce = false)
    (hrun : Reaches node config LosesNoHeight (boot config world) s) :
    ∀ n, s.archiver.db.Stores n → ∀ m ≤ n, s.archiver.db.Stores m := by
  have hbacked : s.Backed := backed_of_reaches (by simp [hconfig]) hrun
  intro n hn m hm
  rcases hm.lt_or_eq with hlt | rfl
  · exact hbacked.stored n hn m hlt
  · exact hn

/-- The steps that bring the message of a height to the archiver: the executor
takes the number, executes, builds and sends. -/
def Sample.archiveEvents : List Event := [.executor, .executor, .executor, .executor, .receive]

/-- The insert of the genesis block fails, the process is restarted and stores
both blocks. -/
def Sample.restartEvents : List Event :=
  [.initializer .ok] ++ Sample.archiveEvents ++
  [.archiver .ok, .archiver .ok, .archiver .ok, .archiver .ok, .archiver (.failed "down"),
    .crash, .initializer .ok] ++
  Sample.archiveEvents ++
  [.archiver .ok, .archiver .ok, .archiver .ok, .executor, .comparer, .comparer] ++
  Sample.archiveEvents ++ [.archiver .ok, .archiver .ok]

theorem no_hole_restart :
    ∃ s, Reaches Sample.node ⟨0, false⟩ LosesNoHeight
        (boot ⟨0, false⟩ (Sample.world [(5, 1)])) s ∧
      s.archiver.db.Stores 1 ∧ s.archiver.db.Stores 0 := by
  have hcompute : (Transition.execute (next Sample.node ⟨0, false⟩) LosesNoHeight
      (boot ⟨0, false⟩ (Sample.world [(5, 1)])) Sample.restartEvents).map
      (fun s ↦ decide (s.archiver.db.Stores 1)) = some true := by
    decide +kernel
  obtain ⟨s, hrun, hview⟩ := Transition.Reaches.exists_of_execute (fun _ _ _ h ↦ h) hcompute
  have hone : s.archiver.db.Stores 1 := of_decide_eq_true hview
  exact ⟨s, hrun, hone, no_hole rfl hrun 1 hone 0 (by decide)⟩

/-- The insert of the genesis block fails, its error is dropped, and block one
is stored. -/
def Sample.holeEvents : List Event :=
  [.initializer .ok] ++ Sample.archiveEvents ++
  [.archiver .ok, .archiver .ok, .archiver .ok, .archiver .ok, .archiver (.failed "down"),
    .archiver .ok, .executor, .comparer, .comparer] ++
  Sample.archiveEvents ++ [.archiver .ok, .archiver .ok]

theorem hole_after_failed_insert :
    ∃ s, Reaches Sample.node ⟨0, false⟩ (fun _ e ↦ e.isBackend = false)
        (boot ⟨0, false⟩ (Sample.world [(5, 1)])) s ∧
      s.archiver.db.Stores 1 ∧ ¬ s.archiver.db.Stores 0 := by
  have hcompute : (Transition.execute (next Sample.node ⟨0, false⟩) (fun _ e ↦ e.isBackend = false)
      (boot ⟨0, false⟩ (Sample.world [(5, 1)])) Sample.holeEvents).map
      (fun s ↦ decide (s.archiver.db.Stores 1 ∧ ¬ s.archiver.db.Stores 0)) = some true := by
    decide +kernel
  obtain ⟨s, hrun, hview⟩ := Transition.Reaches.exists_of_execute (fun _ _ _ h ↦ h) hcompute
  exact ⟨s, hrun, of_decide_eq_true hview⟩

end Pipeline

end SubArchive
