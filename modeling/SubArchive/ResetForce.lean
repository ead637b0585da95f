import SubArchive.Delivery
import SubArchive.NeverPanics

/-!
# Archiving again

With `reset_force` every session starts at `block_num`, and so does every
session after a crash.  Nothing below `block_num` is touched, whatever happens.
From a stored height, or the next one, archiving a growing chain again leaves
the tables as they are and goes on with them.
-/

namespace SubArchive

namespace Pipeline

variable {node : Node} {config : CliConfig} {world : World} {facts : ChainFacts}
  {allowed : Pipeline → Event → Prop} {archiver : Notifier} {s t : Pipeline} {e : Event} {k : ℕ}

/-! ## Below the first height -/

/-- Nothing below `block_num` is on its way. -/
structure FromBlockNum (config : CliConfig) (s : Pipeline) : Prop where
  initializer : s.initializer ≠ .starting
  onWay : ∀ q ∈ s.onWay, config.blockNum ≤ q
  built : s.Built

theorem onWay_start (hreset : config.resetForce = true) :
    (start config world archiver).onWay = [config.blockNum] := by
  simp [start, hreset, onWay, ahead, inFlight, requests, reports, Notifier.restart,
    ArchiveTask.msg?, ExecutorTask.requests, ExecutorTask.reports, ComparerTask.holds]

theorem fromBlockNum_start (hreset : config.resetForce = true) :
    FromBlockNum config (start config world archiver) := by
  refine ⟨by simp [start, hreset], ?_, by simp [Built, start]⟩
  rw [onWay_start hreset]
  intro q hq
  exact le_of_eq (List.mem_singleton.mp hq).symm

theorem fromBlockNum_step (hreset : config.resetForce = true) (h : s.FromBlockNum config)
    (hstep : Step node config s e t) : t.FromBlockNum config := by
  by_cases he : e = .crash
  · subst he
    cases hstep
    exact fromBlockNum_start hreset
  · refine ⟨?_, ?_, built_step h.built hstep⟩
    · cases hstep with
      | crash => exact absurd rfl he
      | initialized | initializerPanics => simp
      | _ => exact h.initializer
    · intro q hq
      rcases mem_onWay_of_step h.built he hstep hq with
        hq | ⟨hstarting, -⟩ | ⟨number, htask, -, rfl⟩
      · exact h.onWay q hq
      · exact absurd hstarting h.initializer
      · have hnumber : number ∈ s.onWay := by
          simp [onWay, inFlight, reports, htask, ComparerTask.holds]
        exact (h.onWay number hnumber).trans (Nat.le_succ number)

theorem rows_below_step {row : BlockModel} (h : s.FromBlockNum config)
    (hlt : row.blockNum < config.blockNum) (hstep : Step node config s e t) :
    row ∈ t.archiver.db.blocks.rows ↔ row ∈ s.archiver.db.blocks.rows := by
  cases hstep with
  | archives hstep =>
      have hother : ∀ msg ∈ s.archiver.task.msg?, msg.model.blockNum ≠ row.blockNum := by
        intro msg hmsg heq
        have hle := h.onWay _ (mem_onWay_of_msg hmsg)
        rw [heq] at hle
        exact absurd hlt (not_lt.mpr hle)
      constructor
      · intro hrow
        rcases hstep.mem_blocks row hrow with hrow | ⟨msg, hmsg, rfl⟩
        · exact hrow
        · exact absurd rfl (hother msg hmsg)
      · intro hrow
        rcases Notifier.kept_block hstep row hrow with hrow | ⟨msg, hmsg, heq⟩
        · exact hrow
        · exact absurd heq (hother msg hmsg)
  | _ => exact Iff.rfl

/-- In every run with `reset_force`, whatever fails or crashes and whatever the
chain does, the rows below `block_num` stay as they were. -/
theorem untouched_below_block_num (hreset : config.resetForce = true)
    (hrun : Reaches node config (fun _ _ ↦ True) (start config world archiver) s) :
    ∀ row : BlockModel, row.blockNum < config.blockNum →
      (row ∈ s.archiver.db.blocks.rows ↔ row ∈ archiver.db.blocks.rows) := by
  intro row hlt
  have hinv : s.FromBlockNum config ∧
      (row ∈ s.archiver.db.blocks.rows ↔ row ∈ archiver.db.blocks.rows) := by
    refine hrun.induct (I := fun s ↦ s.FromBlockNum config ∧
      (row ∈ s.archiver.db.blocks.rows ↔ row ∈ archiver.db.blocks.rows)) ?_ ?_
    · exact ⟨fromBlockNum_start hreset, Iff.rfl⟩
    · intro a e b ha _ hstep
      exact ⟨fromBlockNum_step hreset ha.1 hstep, (rows_below_step ha.1 hlt hstep).trans ha.2⟩
  exact hinv.2

/-- The chain was switched to another branch and block one is archived again,
from tables that hold two blocks. -/
theorem untouched_below_block_one :
    ∃ s, Reaches Sample.node ⟨1, true⟩ (fun _ _ ↦ True)
        (start ⟨1, true⟩ (Sample.world [(9, 1)]) Sample.storedTwoBlocks) s ∧
      s.archiver.db.blocks.rows.map (·.blockHash) = [[0, 0], [1, 9]] ∧
      ∀ row : BlockModel, row.blockNum < 1 → (row ∈ s.archiver.db.blocks.rows ↔
        row ∈ Sample.storedTwoBlocks.db.blocks.rows) := by
  have hcompute : (Transition.execute (next Sample.node ⟨1, true⟩) (fun _ _ ↦ True)
      (start ⟨1, true⟩ (Sample.world [(9, 1)]) Sample.storedTwoBlocks)
      (Sample.archiveEvents ++ [.archiver .ok, .archiver .ok])).map
      (fun s ↦ s.archiver.db.blocks.rows.map (·.blockHash)) = some [[0, 0], [1, 9]] := by
    decide +kernel
  obtain ⟨s, hrun, hview⟩ := Transition.Reaches.exists_of_execute (fun _ _ _ h ↦ h) hcompute
  exact ⟨s, hrun, hview, untouched_below_block_num rfl hrun⟩

/-! ## From a stored height -/

/-- Only a crash reads the configuration. -/
theorem next_config (config' : CliConfig) (he : e ≠ .crash) :
    next node config s e = next node config' s e := by
  cases e with
  | crash => exact absurd rfl he
  | backend | initializer | executor | comparer | receive | archiver => rfl

theorem crashInv_reset (hstart : config.resetForce = true → config.blockNum ≤ k)
    (hworld : facts.HoldIn node world) (htables : archiver.db.UpTo node facts k) :
    CrashInv node facts (start config world archiver) := by
  cases hreset : config.resetForce with
  | false => exact crashInv_start hreset hworld htables
  | true =>
      refine ⟨⟨?_, ?_, by simp [start, Notifier.restart], by simp [Built, start]⟩,
        ⟨hworld, flow_start RuntimeVersionCache.valid_new⟩, ?_, k, htables, trivial⟩
      · intro n hn m hm
        exact htables.stores_iff.mpr (hm.trans (htables.stores_iff.mp hn))
      · intro _ q hq m hm
        have hq' : q ∈ (start config world archiver).onWay := hq
        rw [onWay_start hreset] at hq'
        obtain rfl := List.mem_singleton.mp hq'
        exact Or.inl (htables.stores_iff.mpr (lt_of_lt_of_le hm (hstart hreset)))
      · intro _ n hn
        simp [start, reports, ComparerTask.holds, ExecutorTask.reports] at hn

/-- Two blocks are archived, the process goes down and starts with the genesis
block again. -/
def Sample.againEvents : List Event :=
  List.flatten [Sample.archiveEvents, List.replicate 6 (.archiver .ok),
    [.executor, .comparer, .comparer], Sample.archiveEvents, List.replicate 6 (.archiver .ok),
    [.crash], Sample.archiveEvents, List.replicate 3 (.archiver .ok)]

end Pipeline

end SubArchive
