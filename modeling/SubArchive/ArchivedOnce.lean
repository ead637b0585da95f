import SubArchive.CrashEquivalence

/-!
# Heights that are archived once

The comparer puts a number that is not below the best number back on the
executor queue, not on its own.  While the node is caught up, the block at the
best height is therefore executed, stored and published again and again.  If
the comparer meets the heights that were sent only below the best number, each
is handed to the archiver, inserted and published once.
-/

namespace SubArchive

/-- What the archiver leaves outside for the message of a height. -/
inductive Effect where
  | inserted (number : BlockNumber)
  | published (number : BlockNumber)
deriving DecidableEq, Repr

def Effect.height : Effect → BlockNumber
  | .inserted number | .published number => number

/-- The effects that the archiver may still have on the message it is at. -/
def ArchiveTask.Awaits : ArchiveTask → Effect → Prop
  | .checkMetadata msg | .getMetadata msg | .insertMetadata msg _ | .sendMetadata msg _
  | .insertBlock msg => fun effect ↦ effect.height = msg.model.blockNum
  | .sendBlock msg => fun effect ↦ effect = .published msg.model.blockNum
  | .waiting | .failed _ _ | .panicked _ => fun _ ↦ False

namespace Notifier

/-- The effects of the pending operation when it ends in `reply`. -/
def effects (a : Notifier) (reply : Reply) : List Effect :=
  match a.task, reply with
  | .insertBlock msg, .ok | .insertBlock msg, .lost _ =>
      if (a.db.insertBlock msg.model).isSome then [.inserted msg.model.blockNum] else []
  | .sendBlock msg, .ok | .sendBlock msg, .lost _ => [.published msg.model.blockNum]
  | _, _ => []

variable {metadataAt : BlockNumber → Except Panic (Except Error Bytes)} {a b : Notifier}
  {reply : Reply} {effect : Effect}

theorem nodup_effects : (a.effects reply).Nodup := by
  unfold effects
  split
  · split <;> simp
  · split <;> simp
  all_goals simp

theorem awaits_of_mem_effects (h : effect ∈ a.effects reply) : a.task.Awaits effect := by
  unfold effects at h
  split at h
  · rename_i htask
    split at h
    · obtain rfl := List.mem_singleton.mp h
      simp [htask, ArchiveTask.Awaits, Effect.height]
    · simp at h
  · rename_i htask
    split at h
    · obtain rfl := List.mem_singleton.mp h
      simp [htask, ArchiveTask.Awaits, Effect.height]
    · simp at h
  · rename_i htask
    obtain rfl := List.mem_singleton.mp h
    simp [htask, ArchiveTask.Awaits]
  · rename_i htask
    obtain rfl := List.mem_singleton.mp h
    simp [htask, ArchiveTask.Awaits]
  · simp at h

theorem height_of_awaits (h : a.task.Awaits effect) :
    ∃ msg ∈ a.task.msg?, effect.height = msg.model.blockNum := by
  cases htask : a.task with
  | checkMetadata msg | getMetadata msg | insertMetadata msg _ | sendMetadata msg _
  | insertBlock msg =>
      rw [htask] at h
      exact ⟨msg, by simp [ArchiveTask.msg?], h⟩
  | sendBlock msg =>
      rw [htask] at h
      exact ⟨msg, by simp [ArchiveTask.msg?], congrArg Effect.height h⟩
  | waiting | failed _ _ | panicked _ => simp [htask, ArchiveTask.Awaits] at h

/-- What a step has brought about is not awaited any more, and nothing new is
awaited. -/
theorem Step.awaits (hstep : Step metadataAt a reply b) (h : b.task.Awaits effect) :
    a.task.Awaits effect ∧ effect ∉ a.effects reply := by
  cases hstep with
  | metadataExists htask | metadataMissing htask | metadataRead htask | metadataInserted htask
  | metadataSent htask =>
      exact ⟨by simpa [htask, ArchiveTask.Awaits] using h, by simp [effects, htask]⟩
  | @blockInserted msg db htask hinsert =>
      obtain rfl : effect = .published msg.model.blockNum := h
      refine ⟨by simp [htask, ArchiveTask.Awaits, Effect.height], ?_⟩
      simp [effects, htask, hinsert]
  | checkFails | metadataPanics | metadataInsertLost | metadataInsertFails | metadataSendLost
  | metadataSendFails | blockInsertLost | blockInsertFails | blockSent | blockSendLost
  | blockSendFails | errorDropped => exact absurd h id

end Notifier

namespace Pipeline

variable {node : Node} {config : CliConfig} {world : World} {archiver : Notifier}
  {s t : Pipeline} {e : Event} {log : List Effect}

def effects (s : Pipeline) : Event → List Effect
  | .archiver reply => s.archiver.effects reply
  | _ => []

/-- The comparer meets a height that was sent to the archiver only below the
best number, and there is no crash. -/
def ResendsNothing (s : Pipeline) (e : Event) : Prop :=
  match e, s.comparer with
  | .crash, _ => False
  | .comparer, .comparing number =>
      number ∈ s.heights → number < s.world.main.blockchain.info.bestNumber
  | _, _ => True

instance (s : Pipeline) (e : Event) : Decidable (s.ResendsNothing e) := by
  unfold ResendsNothing
  exact match e, s.comparer with
    | .crash, _ => instDecidableFalse
    | .comparer, .comparing number =>
        inferInstanceAs (Decidable (number ∈ s.heights →
          number < s.world.main.blockchain.info.bestNumber))
    | .comparer, .waiting | .comparer, .delaying _ | .backend _, _ | .initializer _, _
    | .executor, _ | .receive, _ | .archiver _, _ => instDecidableTrue

/-! ## The numbers in flight are past the heights that were sent -/

structure Ascends (s : Pipeline) : Prop where
  ordered : s.heights.Pairwise (· < ·)
  requests : ∀ n ∈ s.requests, ∀ h ∈ s.heights, h < n
  reports : ∀ n ∈ s.reports, ∀ h ∈ s.heights, h ≤ n
  delaying : ∀ n, s.comparer = .delaying n → n ∉ s.heights

theorem ascends_start : Ascends (start config world archiver) := by
  constructor <;> simp [start, heights]

/-- A step that sends nothing and puts no new number in flight. -/
theorem Ascends.congr (h : s.Ascends) (hheights : t.heights = s.heights)
    (hrequests : ∀ n ∈ t.requests, n ∈ s.requests) (hreports : ∀ n ∈ t.reports, n ∈ s.reports)
    (hdelaying : ∀ n, t.comparer = .delaying n → n ∉ s.heights) : t.Ascends where
  ordered := hheights ▸ h.ordered
  requests n hn := hheights ▸ h.requests n (hrequests n hn)
  reports n hn := hheights ▸ h.reports n (hreports n hn)
  delaying n hn := hheights ▸ hdelaying n hn

/-- The comparer puts a number on the executor queue that is past the heights
that were sent. -/
theorem Ascends.request {token : Token} {number n : BlockNumber} (h : s.Ascends)
    (hcarries : s.Carries token) (hholds : s.comparer.holds = [number])
    (hlt : ∀ m ∈ s.heights, m < n) (hqueue : t.executorQueue = s.executorQueue ++ [n])
    (hcomparer : t.comparer = .waiting) (hexecutor : t.executor = s.executor)
    (hcomparerQueue : t.comparerQueue = s.comparerQueue) (hheights : t.heights = s.heights) :
    t.Ascends := by
  obtain ⟨-, -, hempty, -⟩ := hcarries.of_report hholds
  rw [Pipeline.requests, List.append_eq_nil_iff] at hempty
  constructor
  · rw [hheights]
    exact h.ordered
  · intro m hm
    obtain rfl : m = n := by simpa [Pipeline.requests, hexecutor, hqueue, hempty] using hm
    rw [hheights]
    exact hlt
  · intro m hm
    rw [hheights]
    apply h.reports
    simp only [Pipeline.reports, hcomparer, ComparerTask.holds, hcomparerQueue, hexecutor,
      List.nil_append] at hm
    rw [Pipeline.reports, List.append_assoc]
    exact List.mem_append_right _ hm
  · simp [hcomparer]

/-- The executor sends the message of its number and is about to report it. -/
theorem Ascends.send {token : Token} {number : BlockNumber} {msg : ArchiveSendMsg} (h : s.Ascends)
    (hcarries : s.Carries token) (htask : s.executor = .built number msg)
    (hnumber : msg.model.blockNum = number) :
    Ascends { s with
      archiverQueue := s.archiverQueue ++ [msg]
      archived := s.archived ++ [msg]
      executor := .notifying number } := by
  obtain ⟨-, hqueue, hempty, -⟩ := hcarries.of_request (n := number) (by rw [htask]; rfl)
  have hbelow : ∀ h ∈ s.heights, h < number :=
    h.requests number (by simp [Pipeline.requests, ExecutorTask.requests, htask])
  obtain ⟨⟨hholds, hwaiting⟩, -⟩ : (s.comparer.holds = [] ∧ s.comparerQueue = []) ∧
      s.executor.reports = [] := by
    simpa [Pipeline.reports, and_assoc] using hempty
  have hheights : ∀ h ∈ s.heights ++ [number], h ≤ number := by
    intro h hh
    rcases List.mem_append.mp hh with hh | hh
    · exact (hbelow h hh).le
    · exact (List.mem_singleton.mp hh).le
  have hsent : heights { s with
      archiverQueue := s.archiverQueue ++ [msg]
      archived := s.archived ++ [msg]
      executor := .notifying number } = s.heights ++ [number] := by
    simp [heights, hnumber]
  refine ⟨?_, ?_, ?_, ?_⟩
  · rw [hsent]
    exact List.pairwise_append.mpr ⟨h.ordered, List.pairwise_singleton _ _,
      by simpa using hbelow⟩
  · simp [Pipeline.requests, ExecutorTask.requests, hqueue]
  · rw [hsent]
    intro n hn
    obtain rfl : n = number := by
      simpa [Pipeline.reports, ExecutorTask.reports, hholds, hwaiting] using hn
    exact hheights
  · intro n hn
    simp [show s.comparer = .delaying n from hn, ComparerTask.holds] at hholds

theorem ascends_step {token : Token} (hcarries : s.Carries token) (hbuilt : s.Built)
    (hfirst : s.initializer = .starting → s.heights = []) (h : s.Ascends)
    (hresends : s.ResendsNothing e) (hstep : Step node config s e t) : t.Ascends := by
  cases hstep with
  | crash => exact hresends.elim
  | backend | receives | archives | initializerPanics =>
      exact ⟨h.ordered, h.requests, h.reports, h.delaying⟩
  | initialized htask =>
      have hnil := hfirst htask
      constructor <;> simp [heights] at hnil ⊢ <;> simp [hnil]
  | executorReceives htask hqueue =>
      refine h.congr rfl ?_ ?_ h.delaying <;>
        simp [Pipeline.requests, Pipeline.reports, ExecutorTask.requests, ExecutorTask.reports,
          htask, hqueue]
  | executorPanics message hpanic =>
      refine h.congr rfl ?_ ?_ h.delaying <;>
        simp +contextual [Pipeline.requests, Pipeline.reports, ExecutorTask.requests,
          ExecutorTask.reports, or_imp]
  | genesisPassed htask =>
      have hnone : ∀ h ∈ s.heights, False := fun m hm ↦
        Nat.not_lt_zero m (h.requests 0
          (by simp [Pipeline.requests, ExecutorTask.requests, htask]) m hm)
      refine ⟨h.ordered, ?_, ?_, h.delaying⟩
      · exact fun _ _ m hm ↦ (hnone m hm).elim
      · exact fun _ _ m hm ↦ (hnone m hm).elim
  | executorExecutes htask | executorBuilds htask | executorNotifies htask =>
      refine h.congr rfl ?_ ?_ h.delaying <;>
        simp [Pipeline.requests, Pipeline.reports, ExecutorTask.requests, ExecutorTask.reports,
          htask]
  | @executorSends number msg htask => exact h.send hcarries htask (hbuilt number msg htask)
  | comparerReceives htask hqueue =>
      refine h.congr rfl (fun _ hn ↦ hn) ?_ (by simp)
      simp [Pipeline.reports, ComparerTask.holds, htask, hqueue]
  | @comparerAdvances number htask hbest =>
      have hle := h.reports number (by simp [Pipeline.reports, ComparerTask.holds, htask])
      refine h.request hcarries (by rw [htask]; rfl) ?_ rfl rfl rfl rfl rfl
      intro m hm
      exact Nat.lt_succ_of_le (hle m hm)
  | @comparerDelays number htask hbest =>
      refine h.congr rfl (fun _ hn ↦ hn) ?_ ?_
      · simp [Pipeline.reports, ComparerTask.holds, htask]
      · rintro n hn hmem
        obtain rfl : number = n := by simpa using hn
        simp only [ResendsNothing, htask] at hresends
        exact hbest (hresends hmem)
  | @comparerResends number htask =>
      have hle := h.reports number (by simp [Pipeline.reports, ComparerTask.holds, htask])
      refine h.request hcarries (by rw [htask]; rfl) ?_ rfl rfl rfl rfl rfl
      intro m hm
      -- the height itself was not sent, or the comparer would not have waited
      exact lt_of_le_of_ne (hle m hm) fun heq ↦ h.delaying number htask (heq ▸ hm)

/-! ## One insert and one record for each height -/

structure EffectsOnce (s : Pipeline) (log : List Effect) : Prop where
  nodup : log.Nodup
  sent : ∀ effect ∈ log, effect.height ∈ s.heights
  queued : ∀ effect ∈ log, ∀ msg ∈ s.archiverQueue, effect.height ≠ msg.model.blockNum
  awaited : ∀ effect ∈ log, ¬ s.archiver.task.Awaits effect

theorem Fifo.current_lt (hfifo : s.Fifo) (hordered : s.heights.Pairwise (· < ·))
    {msg : ArchiveSendMsg} (hmsg : msg ∈ s.archiver.task.msg?) :
    msg.model.blockNum ∈ s.heights ∧
      ∀ msg' ∈ s.archiverQueue, msg.model.blockNum < msg'.model.blockNum := by
  obtain ⟨received, harchived, hcurrent⟩ := hfifo
  have hreceived : msg ∈ received := List.mem_of_getLast? (hcurrent msg hmsg)
  refine ⟨List.mem_map.mpr ⟨msg, harchived ▸ List.mem_append_left _ hreceived, rfl⟩, ?_⟩
  intro msg' hmsg'
  rw [heights, harchived, List.map_append, List.pairwise_append] at hordered
  exact hordered.2.2 _ (List.mem_map_of_mem hreceived) _ (List.mem_map_of_mem hmsg')

theorem effectsOnce_step (hfifo : s.Fifo) (hbuilt : s.Built) (hascends : s.Ascends)
    (h : s.EffectsOnce log) (hcrash : e ≠ .crash) (hstep : Step node config s e t) :
    t.EffectsOnce (log ++ s.effects e) := by
  obtain ⟨hnodup, hsent, hqueued, hawaited⟩ := h
  cases hstep with
  | crash => exact absurd rfl hcrash
  | @executorSends number msg htask =>
      rw [show s.effects .executor = [] from rfl, List.append_nil]
      refine ⟨hnodup, ?_, ?_, hawaited⟩
      · intro effect heffect
        simpa [heights] using Or.inl (List.mem_map.mp (hsent effect heffect))
      · intro effect heffect
        refine List.forall_mem_append.mpr ⟨hqueued effect heffect, ?_⟩
        rw [List.forall_mem_singleton, hbuilt number msg htask]
        apply ne_of_lt
        apply hascends.requests number _ _ (hsent effect heffect)
        simp [Pipeline.requests, ExecutorTask.requests, htask]
  | @receives msg queue htask hqueue =>
      rw [show s.effects .receive = [] from rfl, List.append_nil]
      refine ⟨hnodup, hsent, ?_, ?_⟩
      · intro effect heffect msg' hmsg'
        exact hqueued effect heffect msg' (hqueue ▸ List.mem_cons_of_mem _ hmsg')
      · intro effect heffect hawaits
        exact hqueued effect heffect msg (hqueue ▸ List.mem_cons_self) hawaits
  | @archives reply archiver hstep =>
      rw [show s.effects (.archiver reply) = s.archiver.effects reply from rfl]
      have hnew : ∀ effect ∈ s.archiver.effects reply, effect.height ∈ s.heights ∧
          ∀ msg ∈ s.archiverQueue, effect.height ≠ msg.model.blockNum := by
        intro effect heffect
        obtain ⟨msg, hmsg, heq⟩ :=
          Notifier.height_of_awaits (Notifier.awaits_of_mem_effects heffect)
        obtain ⟨hmem, hlt⟩ := hfifo.current_lt hascends.ordered hmsg
        exact ⟨heq ▸ hmem, fun msg' hmsg' ↦ ne_of_lt (heq ▸ hlt msg' hmsg')⟩
      refine ⟨?_, ?_, ?_, ?_⟩
      · rw [List.nodup_append']
        refine ⟨hnodup, Notifier.nodup_effects, ?_⟩
        intro effect hold hnew
        exact hawaited effect hold (Notifier.awaits_of_mem_effects hnew)
      · exact List.forall_mem_append.mpr ⟨hsent, fun effect heffect ↦ (hnew effect heffect).1⟩
      · exact List.forall_mem_append.mpr ⟨hqueued, fun effect heffect ↦ (hnew effect heffect).2⟩
      · intro effect heffect hawaits
        obtain ⟨hbefore, hnotNew⟩ := hstep.awaits hawaits
        rcases List.mem_append.mp heffect with hold | hnew
        · exact hawaited effect hold hbefore
        · exact hnotNew hnew
  | backend | initialized | initializerPanics | executorReceives | executorPanics | genesisPassed
  | executorExecutes | executorBuilds | executorNotifies | comparerReceives | comparerAdvances
  | comparerDelays | comparerResends =>
      exact (List.append_nil log).symm ▸ ⟨hnodup, hsent, hqueued, hawaited⟩

/-- In a session in which the comparer meets the heights that were sent only
below the best number, each height is sent to the archiver, inserted and
published at most once. -/
theorem archived_once
    (hrun : Transition.Reaches (Transition.logged (next node config) effects)
      (fun s ↦ s.1.ResendsNothing) (start config world archiver, []) (s, log)) :
    s.heights.Nodup ∧ log.Nodup := by
  have hinv := hrun.logged_invariant (I := fun s log ↦ s.Ascends ∧ s.EffectsOnce log)
    ⟨ascends_start, by constructor <;> simp [start]⟩ ?_
  · exact ⟨hinv.2.1.ordered.imp ne_of_lt, hinv.2.2.nodup⟩
  · rintro a e b log hreaches ⟨hascends, honce⟩ hresends hnext
    have hcrash : ∀ a e, ResendsNothing a e → InSession a e := by
      rintro a _ hresends rfl
      exact hresends
    obtain ⟨⟨l, hl, hsim⟩, hbuilt, hfifo, huntouched⟩ :=
      session_invariant (Transition.Reaches.mono hcrash hreaches)
    have hfirst : a.initializer = .starting → a.heights = [] := by
      intro hstarting
      rw [heights, congrArg Pipeline.archived (huntouched hstarting).2]
      rfl
    have hstep := step_of_next hnext
    exact ⟨ascends_step hsim.carries hbuilt hfirst hascends hresends hstep,
      effectsOnce_step hfifo hbuilt hascends honce (hcrash _ _ hresends) hstep⟩

/-- Both blocks of a chain are archived; the best number stays above the height
that the comparer meets. -/
def Sample.twoBlockEvents : List Event :=
  [.initializer .ok] ++ Sample.archiveEvents ++ List.replicate 6 (.archiver .ok) ++
    [.executor, .comparer, .comparer] ++ Sample.archiveEvents ++ List.replicate 3 (.archiver .ok)

theorem archived_once_two_blocks :
    ∃ s log, Transition.Reaches (Transition.logged (next Sample.node ⟨0, false⟩) effects)
        (fun s ↦ s.1.ResendsNothing)
        (start ⟨0, false⟩ (Sample.world [(5, 1)]) ⟨.waiting, .empty, []⟩, []) (s, log) ∧
      s.heights = [0, 1] ∧ log = [.inserted 0, .published 0, .inserted 1, .published 1] ∧
      s.heights.Nodup ∧ log.Nodup := by
  have hcompute : (Transition.execute (Transition.logged (next Sample.node ⟨0, false⟩) effects)
      (fun s ↦ s.1.ResendsNothing)
      (start ⟨0, false⟩ (Sample.world [(5, 1)]) ⟨.waiting, .empty, []⟩, [])
      Sample.twoBlockEvents).map (fun s ↦ (s.1.heights, s.2)) =
        some ([0, 1], [.inserted 0, .published 0, .inserted 1, .published 1]) := by
    decide +kernel
  obtain ⟨⟨s, log⟩, hrun, hview⟩ := Transition.Reaches.exists_of_execute (fun _ _ _ h ↦ h) hcompute
  obtain ⟨hheights, hlog⟩ := Prod.mk.inj hview
  exact ⟨s, log, hrun, hheights, hlog, archived_once hrun⟩

/-- The genesis block is the best block for as long as the comparer waits. -/
def Sample.caughtUpEvents : List Event :=
  [.initializer .ok] ++ Sample.archiveEvents ++ List.replicate 6 (.archiver .ok) ++
    [.executor, .comparer, .comparer, .comparer] ++ Sample.archiveEvents ++
    List.replicate 3 (.archiver .ok)

/-- With every operation successful and a chain that does not move at all, the
best block is sent, inserted and published a second time. -/
theorem archived_twice :
    ∃ s log, Transition.Reaches (Transition.logged (next Sample.node ⟨0, false⟩) effects)
        (fun s e ↦ e ≠ .crash ∧ s.1.Succeeds e ∧ e.isBackend = false)
        (start ⟨0, false⟩ (Sample.world []) ⟨.waiting, .empty, []⟩, []) (s, log) ∧
      s.heights = [0, 0] ∧ log = [.inserted 0, .published 0, .inserted 0, .published 0] := by
  have hcompute : (Transition.execute (Transition.logged (next Sample.node ⟨0, false⟩) effects)
      (fun s e ↦ InSession s.1 e ∧ s.1.Succeeds e ∧ e.isBackend = false)
      (start ⟨0, false⟩ (Sample.world []) ⟨.waiting, .empty, []⟩, [])
      Sample.caughtUpEvents).map (fun s ↦ (s.1.heights, s.2)) =
        some ([0, 0], [.inserted 0, .published 0, .inserted 0, .published 0]) := by
    decide +kernel
  obtain ⟨⟨s, log⟩, hrun, hview⟩ := Transition.Reaches.exists_of_execute (fun _ _ _ h ↦ h) hcompute
  obtain ⟨hheights, hlog⟩ := Prod.mk.inj hview
  exact ⟨s, log, hrun, hheights, hlog⟩

end Pipeline

end SubArchive
