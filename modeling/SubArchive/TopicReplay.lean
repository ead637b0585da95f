import SubArchive.Delivery
import SubArchive.Replay

/-!
# Replaying the topic of blocks

A consumer of the topic may apply the main changes of the records as they come,
those that are published twice included: after each record it has the top-level
storage of that record's block.
-/

namespace SubArchive

/-- Apply the main changes of the records in their order to the empty map. -/
def consume (records : List BlockPayload) : Bytes → Option Bytes :=
  records.foldl (fun m payload ↦ Patch.apply payload.mainChanges.rows m) fun _ ↦ none

namespace Pipeline

variable {node : Node} {config : CliConfig} {facts : ChainFacts} {world : World}
  {branch : Branch node.codec} {s : Pipeline}

/-- What is published at a height leads from the state before it to the state
after it. -/
theorem leads_payload {n : ℕ} (h : branch.Leads (facts.blockRow node n)) :
    ∃ block, branch.at? n = some block ∧ ∀ key ∈ topKeys,
      Patch.apply (facts.message node n).payload.mainChanges.rows (branch.topAfter n) key =
        branch.topAfter (n + 1) key := by
  obtain ⟨block, changes, hat, hchanges, happly⟩ := h
  refine ⟨block, hat, ?_⟩
  obtain rfl : (facts.message node n).payload.mainChanges.rows = changes := by
    have hrow : (facts.blockRow node n).mainChanges =
        (facts.message node n).payload.mainChanges.toJson :=
      (facts.message node n).agrees.mainChanges
    rw [hrow, changesOfJson_toJson] at hchanges
    exact Option.some.inj hchanges
  exact happly

def Sample.plainFacts : ChainFacts := .ofBranch Sample.node (Sample.branch [(5, 1)])

theorem Sample.plainFacts_holdIn : plainFacts.HoldIn Sample.node (Sample.world [(5, 1)]) := by
  refine Sample.holdIn ?_
  unfold Branch.Distinct
  decide +kernel

theorem Sample.plainFacts_noCollision :
    RuntimeVersionCache.NoCollision Sample.node.reader (Set.range plainFacts.code) := by
  refine Sample.noCollision fun n ↦ ?_
  rcases n with _ | _ | n
  · decide
  · decide
  · exact List.mem_cons_self

/-- Block one is published before and after a crash. -/
def Sample.plainEvents : List Event :=
  List.flatten [[.initializer .ok], Sample.archiveEvents, List.replicate 6 (.archiver .ok),
    [.executor, .comparer, .comparer], Sample.archiveEvents, List.replicate 3 (.archiver .ok),
    [.crash, .initializer .ok], Sample.archiveEvents, List.replicate 3 (.archiver .ok)]

end Pipeline

end SubArchive
