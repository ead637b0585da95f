import SubArchive.AppendOnly
import SubArchive.CrashEquivalence

/-!
# Links between rows

The executor reads each block as it is canonical at that moment.  The best
block is read again for as long as it is the best one, so a replacement of it
is followed; once the comparer has moved on, nothing revisits its height.  Rows
of neighbouring heights are linked when each time the upper one is read, the
block that was last read below it is canonical.
-/

namespace SubArchive

namespace World

def hashAt (codec : Codec) (w : World) (n : BlockNumber) : Option Hash :=
  match w.readonly.blockchain.header (.number n) with
  | .ok (some header) => some (codec.hashHeader header)
  | _ => none

/-- Each canonical block names the one below it as its parent. -/
def Linked (codec : Codec) (w : World) : Prop :=
  ∀ n header, w.readonly.blockchain.header (.number (n + 1)) = .ok (some header) →
    w.hashAt codec n = some header.parentHash

end World

theorem Branch.hashAt_world {codec : Codec} (branch : Branch codec) (f n : BlockNumber) :
    (branch.world f).hashAt codec n = branch.hashAt n := by
  rcases hblock : branch.at? n with _ | block <;>
    simp [World.hashAt, Branch.world, Branch.backend, Branch.lookup?, Branch.hashAt, hblock,
      ChainBlock.hash]

theorem Branch.world_linked {codec : Codec} (branch : Branch codec) (f : BlockNumber) :
    (branch.world f).Linked codec := by
  intro n header hheader
  rw [hashAt_world]
  rcases hchild : branch.at? (n + 1) with _ | child
  · simp [world, backend, lookup?, hchild] at hheader
  · obtain rfl : child.header = header := by
      simpa [world, backend, lookup?, hchild] using hheader
    exact parentHash_eq hchild

structure BlockLink where
  height : BlockNumber
  hash : Hash
  parentHash : Hash
deriving DecidableEq

def BlockModel.link (model : BlockModel) : BlockLink :=
  ⟨model.blockNum, model.blockHash, model.parentHash⟩

def ExecutorTask.links (codec : Codec) : ExecutorTask → List BlockLink
  | .executed number _ signedBlock =>
      [⟨number, codec.hashHeader signedBlock.block.header, signedBlock.block.header.parentHash⟩]
  | .built _ msg => [msg.model.link]
  | _ => []

/-- The last block at the height, of those that are listed. -/
def lastAt (m : BlockNumber) (links : List BlockLink) : Option BlockLink :=
  KeyedTable.latest BlockLink.height m links

theorem lastAt_append {m : BlockNumber} {links more : List BlockLink} :
    lastAt m (links ++ more) = (lastAt m more).or (lastAt m links) :=
  KeyedTable.latest_append

/-- Where there are blocks at the heights `n` and `n + 1`, the last of them are
linked. -/
def LinkedAt (n : BlockNumber) (links : List BlockLink) : Prop :=
  ∀ link ∈ lastAt n links, ∀ child ∈ lastAt (n + 1) links, child.parentHash = link.hash

theorem LinkedAt.concat {n : BlockNumber} {links : List BlockLink} {new : BlockLink}
    (h : LinkedAt n links)
    (hparent : new.height = n → ∀ child ∈ lastAt (n + 1) links, child.parentHash = new.hash)
    (hchild : new.height = n + 1 → ∀ link ∈ lastAt n links, new.parentHash = link.hash) :
    LinkedAt n (links ++ [new]) := by
  intro link hlink child hhigher
  simp only [lastAt, KeyedTable.latest_append_singleton, Option.mem_def] at hlink hhigher
  split at hlink
  · rename_i hn
    obtain rfl := Option.some.inj hlink
    rw [if_neg fun heq ↦ Nat.succ_ne_self n (heq.symm.trans hn)] at hhigher
    exact hparent hn child hhigher
  · split at hhigher
    · rename_i hn
      obtain rfl := Option.some.inj hhigher
      exact hchild hn link hlink
    · exact h link hlink child hhigher

theorem LinkedAt.congr {n : BlockNumber} {links links' : List BlockLink} (h : LinkedAt n links)
    (hlast : ∀ m, lastAt m links' = lastAt m links) : LinkedAt n links' := by
  intro link hlink child hchild
  rw [hlast] at hlink hchild
  exact h link hlink child hchild

/-- The rows, as far as links are concerned. -/
def Notifier.stored (a : Notifier) : List BlockLink := a.db.blocks.rows.map BlockModel.link

namespace Notifier

variable {a : Notifier} {n : BlockNumber} {model : BlockModel}

theorem lastAt_stored {link : BlockLink} :
    lastAt n a.stored = some link ↔
      ∃ row ∈ a.db.blocks.rows, row.blockNum = n ∧ row.link = link := by
  rw [lastAt, stored, KeyedTable.latest_map]
  change (KeyedTable.latest BlockModel.blockNum n a.db.blocks.rows).map BlockModel.link = _ ↔ _
  simp only [Option.map_eq_some_iff, KeyedTable.latest_rows, and_assoc]

theorem stored_append : a.stored ++ [model.link] =
    (a.db.blocks.rows ++ [model]).map BlockModel.link := by
  simp [stored]

/-- A row that was written is as good as one that is yet to be written. -/
theorem lastAt_upsert {db : Database} (hinsert : a.db.insertBlock model = some db)
    (pending : List BlockLink) (m : BlockNumber) :
    lastAt m (db.blocks.rows.map BlockModel.link ++ pending) =
      lastAt m (a.stored ++ model.link :: pending) := by
  have hrows : lastAt m (db.blocks.rows.map BlockModel.link) =
      lastAt m (a.stored ++ [model.link]) := by
    rw [stored_append, (Database.insertBlock_eq_some.mp hinsert).2.2, lastAt, lastAt,
      KeyedTable.latest_map, KeyedTable.latest_map]
    exact congrArg (Option.map BlockModel.link) KeyedTable.latest_upsert
  rw [List.append_cons, lastAt_append, lastAt_append, hrows]

/-- A row that is there may be written again. -/
theorem lastAt_again (hmem : model ∈ a.db.blocks.rows) (pending : List BlockLink)
    (m : BlockNumber) :
    lastAt m (a.stored ++ pending) = lastAt m (a.stored ++ model.link :: pending) := by
  have hrows : lastAt m a.stored = lastAt m (a.stored ++ [model.link]) := by
    rw [stored_append, stored, lastAt, lastAt, KeyedTable.latest_map, KeyedTable.latest_map]
    exact congrArg (Option.map BlockModel.link) (KeyedTable.latest_append_of_mem hmem).symm
  rw [List.append_cons, lastAt_append, lastAt_append, hrows]

end Notifier

namespace Pipeline

variable {node : Node} {config : CliConfig} {world : World} {archiver : Notifier}
  {s t : Pipeline} {e : Event} {n : BlockNumber} {link : BlockLink}

/-- The blocks on their way from the executor to the archiver, in the order in
which they were read. -/
def queued (codec : Codec) (s : Pipeline) : List BlockLink :=
  s.archiverQueue.map (fun msg ↦ msg.model.link) ++ s.executor.links codec

/-- The same after the block that the archiver is at work on. -/
def pending (codec : Codec) (s : Pipeline) : List BlockLink :=
  s.archiver.task.msg?.toList.map (fun msg ↦ msg.model.link) ++ s.queued codec

/-- The block of height `m` that was read last. -/
def lastRead (codec : Codec) (m : BlockNumber) (s : Pipeline) : Option BlockLink :=
  lastAt m (s.archiver.stored ++ s.pending codec)

/-- Worlds are linked chains, and when a block of height `n + 1` is read, the
block of height `n` that was read last is canonical.  A session with
`reset_force` may also read the height `n` below a block of height `n + 1` that
was there before, and then finds the parent of that one canonical. -/
structure KeepsParent (node : Node) (config : CliConfig) (n : BlockNumber) (s : Pipeline)
    (e : Event) : Prop where
  linked : ∀ w, e = .backend w → w.Linked node.codec
  parent : e = .executor → s.executor = .received (n + 1) →
    ∀ link ∈ s.lastRead node.codec n, s.world.hashAt node.codec n = some link.hash
  again : config.resetForce = true → e = .executor → s.executor = .received n →
    ∀ child ∈ s.lastRead node.codec (n + 1), s.world.hashAt node.codec n = some child.parentHash

/-- The number that the executor is about to read is not below a block that is
stored or on its way. -/
theorem height_le_received {codec : Codec} {number : BlockNumber} (hbelow : s.NeverBelow)
    (hsorted : s.onWay.Pairwise (· ≤ ·)) (htask : s.executor = .received number)
    (hlink : link ∈ s.archiver.stored ++ s.pending codec) : link.height ≤ number := by
  have hflight : number ∈ s.inFlight := by
    simp [inFlight, requests, htask, ExecutorTask.requests]
  rcases List.mem_append.mp hlink with hstored | hpending
  · obtain ⟨row, hrow, rfl⟩ := List.mem_map.mp hstored
    exact hbelow number (List.mem_append_right _ hflight) row.blockNum
      (KeyedTable.key_mem_keys hrow)
  · have hahead : link.height ∈ s.ahead := by
      simp only [pending, queued, htask, ExecutorTask.links, List.append_nil] at hpending
      rw [← List.map_append] at hpending
      obtain ⟨msg, hmsg, rfl⟩ := List.mem_map.mp hpending
      exact List.mem_map.mpr ⟨msg, hmsg, rfl⟩
    exact (List.pairwise_append.mp hsorted).2.2 _ hahead number hflight

/-! ## Links of the writes to come -/

/-- The rows are linked, and will be after any number of the writes that are
still to come. -/
structure LinkInv (node : Node) (n : BlockNumber) (s : Pipeline) : Prop where
  world : s.world.Linked node.codec
  rows : LinkedAt n s.archiver.stored
  writes : (∀ message, s.archiver.task ≠ .panicked message) →
    ∀ writes, writes <+: s.pending node.codec → LinkedAt n (s.archiver.stored ++ writes)
  inserted : ∀ msg, s.archiver.task = .sendBlock msg → msg.model ∈ s.archiver.db.blocks.rows
  unfailed : ∀ msg error, s.archiver.task ≠ .failed msg error

/-- A step that leaves the archiver alone and adds nothing. -/
theorem LinkInv.of_prefix (h : s.LinkInv node n) (hworld : t.world.Linked node.codec)
    (harchiver : t.archiver = s.archiver)
    (hpending : t.pending node.codec <+: s.pending node.codec) :
    t.LinkInv node n where
  world := hworld
  rows := harchiver ▸ h.rows
  writes := by
    rw [harchiver]
    exact fun hlive writes hwrites ↦ h.writes hlive writes (hwrites.trans hpending)
  inserted := harchiver ▸ h.inserted
  unfailed := harchiver ▸ h.unfailed

/-- A step that reads a block. -/
theorem LinkInv.concat (h : s.LinkInv node n) (new : BlockLink)
    (hworld : t.world.Linked node.codec) (harchiver : t.archiver = s.archiver)
    (hpending : t.pending node.codec = s.pending node.codec ++ [new])
    (hparent : new.height = n → ∀ child ∈ s.lastRead node.codec (n + 1),
      child.parentHash = new.hash)
    (hchild : new.height = n + 1 → ∀ link ∈ s.lastRead node.codec n, new.parentHash = link.hash) :
    t.LinkInv node n where
  world := hworld
  rows := harchiver ▸ h.rows
  writes := by
    rw [harchiver, hpending]
    intro hlive writes hwrites
    rcases List.prefix_concat_iff.mp hwrites with rfl | hwrites
    · rw [← List.append_assoc]
      exact (h.writes hlive _ (List.prefix_refl _)).concat hparent hchild
    · exact h.writes hlive writes hwrites
  inserted := harchiver ▸ h.inserted
  unfailed := harchiver ▸ h.unfailed

/-- A step of the archiver that keeps its message and the blocks. -/
theorem LinkInv.keeps {a : Notifier} {msg : ArchiveSendMsg} (h : s.LinkInv node n)
    (hbefore : s.archiver.task.msg? = some msg) (hafter : a.task.msg? = some msg)
    (hblocks : a.db.blocks = s.archiver.db.blocks) (hunsent : ∀ m, a.task ≠ .sendBlock m)
    (hunfailed : ∀ m error, a.task ≠ .failed m error) :
    LinkInv node n { s with archiver := a } := by
  have hstored : a.stored = s.archiver.stored := by rw [Notifier.stored, hblocks, Notifier.stored]
  have hpending : pending node.codec { s with archiver := a } = s.pending node.codec := by
    rw [pending, pending, hbefore, hafter]
    rfl
  refine ⟨h.world, ?_, ?_, fun m hm ↦ absurd hm (hunsent m), hunfailed⟩
  · exact hstored ▸ h.rows
  · rw [hpending]
    intro _ writes hwrites
    change LinkedAt n (a.stored ++ writes)
    rw [hstored]
    exact h.writes (live_of_msg hbefore) writes hwrites

theorem linkInv_archives {a : Notifier} {reply : Reply} (h : s.LinkInv node n)
    (hsucceeds : s.Succeeds (.archiver reply))
    (hstep : Notifier.Step (node.metadata s.world) s.archiver reply a) :
    LinkInv node n { s with archiver := a } := by
  obtain ⟨hreply, haccepts⟩ := hsucceeds
  cases hstep with
  | metadataExists htask | metadataMissing htask | metadataRead htask | metadataSent htask =>
      exact h.keeps (by rw [htask]; rfl) rfl rfl (by simp) (by simp)
  | metadataInserted htask hinsert =>
      exact h.keeps (by rw [htask]; rfl) rfl (Database.insertMetadata_eq_some.mp hinsert).2.2
        (by simp) (by simp)
  | metadataPanics message htask =>
      refine ⟨h.world, h.rows, ?_, by simp, by simp⟩
      intro hlive
      exact absurd rfl (hlive message)
  | @blockInserted msg db htask hinsert =>
      have hlive := live_of_msg (show s.archiver.task.msg? = some msg by rw [htask]; rfl)
      have hmem : msg.model ∈ db.blocks.rows := by
        rw [(Database.insertBlock_eq_some.mp hinsert).2.2, KeyedTable.mem_rows_upsert]
        exact Or.inl rfl
      have hpending : s.pending node.codec = msg.model.link :: s.queued node.codec := by
        simp [pending, htask, ArchiveTask.msg?]
      -- the write that was made is the first of those that were to come
      have hrest : ∀ writes, writes <+: s.queued node.codec →
          LinkedAt n (db.blocks.rows.map BlockModel.link ++ writes) := by
        intro writes hwrites
        refine LinkedAt.congr (h.writes hlive (msg.model.link :: writes) ?_)
          (Notifier.lastAt_upsert hinsert writes)
        rw [hpending]
        exact (List.prefix_cons_inj _).mpr hwrites
      refine ⟨h.world, by simpa [Notifier.stored] using hrest [] List.nil_prefix, ?_, ?_, by simp⟩
      · intro _ writes hwrites
        rcases writes with _ | ⟨first, writes⟩
        · exact hrest [] List.nil_prefix
        · obtain ⟨rfl, hqueued⟩ : first = msg.model.link ∧ writes <+: s.queued node.codec :=
            List.cons_prefix_cons.mp hwrites
          exact (hrest writes hqueued).congr fun m ↦
            (Notifier.lastAt_again (a := ⟨.sendBlock msg, db, []⟩) hmem writes m).symm
      · intro m hm
        obtain rfl : msg = m := by simpa using hm
        exact hmem
  | @blockSent msg htask =>
      have hlive := live_of_msg (show s.archiver.task.msg? = some msg by rw [htask]; rfl)
      refine ⟨h.world, h.rows, ?_, by simp, by simp⟩
      intro _ writes hwrites
      refine LinkedAt.congr (h.writes hlive (msg.model.link :: writes) ?_)
        (Notifier.lastAt_again (h.inserted msg htask) writes)
      rw [pending, htask]
      exact (List.prefix_cons_inj _).mpr hwrites
  | metadataInsertFails error htask hreject =>
      simp only [Notifier.Accepts, htask] at haccepts
      exact absurd (hreject hreply) haccepts
  | blockInsertFails error htask hreject =>
      simp only [Notifier.Accepts, htask] at haccepts
      exact absurd (hreject hreply) haccepts
  | checkFails htask hfails => exact absurd hreply hfails
  | metadataInsertLost | metadataSendLost | metadataSendFails | blockInsertLost | blockSendLost
  | blockSendFails => cases hreply
  | errorDropped htask => exact absurd htask (h.unfailed _ _)

theorem linkInv_step (h : s.LinkInv node n) (hbelow : config.resetForce = false → s.NeverBelow)
    (hsorted : s.onWay.Pairwise (· ≤ ·))
    (hsession : InSession s e) (hsucceeds : s.Succeeds e) (hkeeps : s.KeepsParent node config n e)
    (hstep : Step node config s e t) : t.LinkInv node n := by
  cases hstep with
  | crash => exact absurd rfl hsession
  | backend w => exact h.of_prefix (hkeeps.linked w rfl) rfl (List.prefix_refl _)
  | initialized | initializerPanics | comparerReceives | comparerAdvances | comparerDelays
  | comparerResends => exact h.of_prefix h.world rfl (List.prefix_refl _)
  | executorReceives htask | genesisPassed htask | executorNotifies htask =>
      refine h.of_prefix h.world rfl ?_
      simp [pending, queued, htask, ExecutorTask.links]
  | executorPanics =>
      refine h.of_prefix h.world rfl ?_
      simp [pending, queued, ExecutorTask.links]
  | @executorBuilds number storages signedBlock msg cache htask hbuild =>
      obtain ⟨version, -, rfl⟩ := Node.archiveBuild_eq_ok.mp hbuild
      refine h.of_prefix h.world rfl ?_
      rw [pending, pending, queued, queued, htask]
      exact List.prefix_refl _
  | executorSends htask =>
      refine h.of_prefix h.world rfl ?_
      simp [pending, queued, htask, ExecutorTask.links]
  | @receives msg queue htask hqueue =>
      refine ⟨h.world, h.rows, ?_, by simp, by simp⟩
      intro _ writes hwrites
      refine h.writes (by simp [htask]) writes ?_
      simpa [pending, queued, htask, hqueue, ArchiveTask.msg?] using hwrites
  | archives hstep => exact linkInv_archives h hsucceeds hstep
  | @executorExecutes number storages signedBlock htask hexecute =>
      have hheader : s.world.readonly.blockchain.header (.number number) =
          .ok (some signedBlock.block.header) :=
        (LocalBackendCore.getBlock_eq_some.mp
          (Node.executeBlockAndIntoStorageChanges_eq_some.mp hexecute).1).1
      refine h.concat ⟨number, node.codec.hashHeader signedBlock.block.header,
        signedBlock.block.header.parentHash⟩ h.world rfl ?_ ?_ ?_
      · simp [pending, queued, htask, ExecutorTask.links]
      · rintro rfl child hchild
        have hcanonical : s.world.hashAt node.codec number =
            some (node.codec.hashHeader signedBlock.block.header) := by
          rw [World.hashAt, hheader]
        cases hreset : config.resetForce with
        | true =>
            have hparent := hkeeps.again hreset rfl htask child hchild
            exact Option.some.inj (hparent.symm.trans hcanonical)
        | false =>
            obtain ⟨hmem, hheight⟩ := KeyedTable.mem_of_latest hchild
            have hle := height_le_received (hbelow hreset) hsorted htask hmem
            exact absurd (hheight.symm.trans_le hle) (Nat.not_succ_le_self number)
      · rintro rfl link hlink
        have hparent := hkeeps.parent rfl htask link hlink
        exact Option.some.inj ((h.world n _ hheader).symm.trans hparent)

theorem linkInv_start (hlinked : world.Linked node.codec) (htables : LinkedAt n archiver.stored) :
    LinkInv node n (start config world archiver) := by
  refine ⟨hlinked, htables, ?_, by simp [start, Notifier.restart],
    by simp [start, Notifier.restart]⟩
  intro _ writes hwrites
  obtain rfl : writes = [] := List.prefix_nil.mp hwrites
  rw [List.append_nil]
  exact htables

/-- In a session without failures, rows of heights `n` and `n + 1` are linked if
each time a block of height `n + 1` is read the block last read at height `n` is
canonical. -/
theorem hash_linked (hlinked : world.Linked node.codec) (htables : LinkedAt n archiver.stored)
    (hrun : Reaches node config
      (fun s e ↦ InSession s e ∧ s.Succeeds e ∧ s.KeepsParent node config n e)
      (start config world archiver) s) :
    ∀ row ∈ s.archiver.db.blocks.rows, ∀ row' ∈ s.archiver.db.blocks.rows,
      row.blockNum = n → row'.blockNum = n + 1 → row'.parentHash = row.blockHash := by
  have hinv : s.LinkInv node n := by
    induction hrun with
    | refl => exact linkInv_start hlinked htables
    | tail hrun hlast ih =>
        obtain ⟨e, ⟨hsession, hsucceeds, hkeeps⟩, hnext⟩ := id hlast
        exact linkInv_step ih (fun hreset ↦ (neverBelow_of_reaches hreset hrun).1)
          (sorted_onWay hrun) hsession hsucceeds hkeeps (step_of_next hnext)
  intro row hrow row' hrow' hn hn'
  exact hinv.rows row.link (Notifier.lastAt_stored.mpr ⟨row, hrow, hn, rfl⟩) row'.link
    (Notifier.lastAt_stored.mpr ⟨row', hrow', hn', rfl⟩)

/-- Block one is archived and replaced while it is the best block.  The comparer
sends it again, and the block that has replaced it is archived before block two. -/
def Sample.tipSwitchEvents : List Event :=
  [.initializer .ok] ++ Sample.archiveEvents ++ List.replicate 6 (.archiver .ok) ++
  [.executor, .comparer, .comparer] ++ Sample.archiveEvents ++
  List.replicate 3 (.archiver .ok) ++
  [.executor, .comparer, .comparer, .backend (Sample.world [(6, 1), (7, 1)]), .comparer] ++
  Sample.archiveEvents ++ List.replicate 3 (.archiver .ok) ++
  [.executor, .comparer, .comparer] ++ Sample.archiveEvents ++ List.replicate 3 (.archiver .ok)

theorem hash_linked_tip_switch :
    ∃ s, Reaches Sample.node ⟨0, false⟩
        (fun s e ↦ InSession s e ∧ s.Succeeds e ∧ s.KeepsParent Sample.node ⟨0, false⟩ 1 e)
        (start ⟨0, false⟩ (Sample.world [(5, 1)]) ⟨.waiting, .empty, []⟩) s ∧
      ∃ row ∈ s.archiver.db.blocks.rows, ∃ row' ∈ s.archiver.db.blocks.rows,
        row.blockHash = [1, 6] ∧ row'.blockHash = [2, 7] ∧ row'.parentHash = row.blockHash := by
  let visible (s : Pipeline) (e : Event) : Prop := InSession s e ∧ s.Succeeds e ∧
    (s.executor.requests = [2] → ∀ link ∈ s.lastRead Sample.codec 1,
      s.world.hashAt Sample.codec 1 = some link.hash)
  have hcompute : (Transition.execute (next Sample.node ⟨0, false⟩) visible
      (start ⟨0, false⟩ (Sample.world [(5, 1)]) ⟨.waiting, .empty, []⟩)
      Sample.tipSwitchEvents).map
      (fun s ↦ s.archiver.db.blocks.rows.map fun row ↦ (row.blockNum, row.blockHash)) =
      some [(0, [0, 0]), (1, [1, 6]), (2, [2, 7])] := by
    decide +kernel
  have hvisible : ∀ s, ∀ e ∈ Sample.tipSwitchEvents, visible s e →
      InSession s e ∧ s.Succeeds e ∧ s.KeepsParent Sample.node ⟨0, false⟩ 1 e := by
    rintro s e he ⟨hsession, hsucceeds, hparent⟩
    refine ⟨hsession, hsucceeds, ?_, ?_, by simp⟩
    · rintro w rfl
      obtain rfl : w = Sample.world [(6, 1), (7, 1)] := by
        simpa [Sample.tipSwitchEvents, Sample.archiveEvents] using he
      exact Branch.world_linked _ _
    · intro _ hreceived
      exact hparent (by rw [hreceived]; rfl)
  obtain ⟨s, hrun, hview⟩ := Transition.Reaches.exists_of_execute hvisible hcompute
  obtain ⟨row, hrow, hlink⟩ : ∃ row ∈ s.archiver.db.blocks.rows,
      (row.blockNum, row.blockHash) = (1, [1, 6]) := by
    rw [← List.mem_map, hview]
    simp
  obtain ⟨row', hrow', hlink'⟩ : ∃ row ∈ s.archiver.db.blocks.rows,
      (row.blockNum, row.blockHash) = (2, [2, 7]) := by
    rw [← List.mem_map, hview]
    simp
  simp only [Prod.mk.injEq] at hlink hlink'
  refine ⟨s, hrun, row, hrow, row', hrow', hlink.2, hlink'.2, ?_⟩
  exact hash_linked (Branch.world_linked _ _) (by simp [LinkedAt, lastAt, Notifier.stored,
    Database.empty, KeyedTable.empty, KeyedTable.latest]) hrun row hrow row' hrow' hlink.1 hlink'.1

/-- The chain moves on, or switches to another branch above the last finalized
block; it stays a linked chain. -/
def SwitchesAboveFinalized (node : Node) (s : Pipeline) (e : Event) : Prop :=
  ∀ w, e = .backend w → w.Linked node.codec ∧
    ∀ n ≤ s.world.readonly.blockchain.info.finalizedNumber,
      w.hashAt node.codec n = s.world.hashAt node.codec n

/-- Block one is archived, then the chain switches to another branch above the
genesis block, and block two of that branch is archived. -/
def Sample.switchEvents : List Event :=
  [.initializer .ok] ++ Sample.archiveEvents ++
  [.archiver .ok, .archiver .ok, .archiver .ok, .archiver .ok, .archiver .ok, .archiver .ok,
    .executor, .comparer, .comparer] ++ Sample.archiveEvents ++
  [.archiver .ok, .archiver .ok, .archiver .ok, .backend (Sample.world [(6, 1), (7, 1)]),
    .executor, .comparer, .comparer] ++ Sample.archiveEvents ++
  [.archiver .ok, .archiver .ok, .archiver .ok]

theorem unlinked_after_switch :
    ∃ s, Reaches Sample.node ⟨0, false⟩
        (fun s e ↦ InSession s e ∧ s.Succeeds e ∧ SwitchesAboveFinalized Sample.node s e)
        (boot ⟨0, false⟩ (Sample.world [(5, 1)])) s ∧
      ∃ row ∈ s.archiver.db.blocks.rows, ∃ row' ∈ s.archiver.db.blocks.rows,
        row.blockNum = 1 ∧ row'.blockNum = 2 ∧ row'.parentHash ≠ row.blockHash := by
  let visible (s : Pipeline) (e : Event) : Prop := InSession s e ∧ s.Succeeds e ∧
    (e.isBackend = true → s.world.hashAt Sample.codec 0 = some [0, 0] ∧
      s.world.readonly.blockchain.info.finalizedNumber = 0)
  have hcompute : (Transition.execute (next Sample.node ⟨0, false⟩) visible
      (boot ⟨0, false⟩ (Sample.world [(5, 1)])) Sample.switchEvents).map
      (fun s ↦ s.archiver.db.blocks.rows.map BlockModel.link) =
      some [⟨0, [0, 0], defaultHash⟩, ⟨1, [1, 5], [0, 0]⟩, ⟨2, [2, 7], [1, 6]⟩] := by
    decide +kernel
  have hvisible : ∀ s, ∀ e ∈ Sample.switchEvents, visible s e →
      InSession s e ∧ s.Succeeds e ∧ SwitchesAboveFinalized Sample.node s e := by
    rintro s e he ⟨hsession, hsucceeds, hgenesis⟩
    refine ⟨hsession, hsucceeds, ?_⟩
    rintro w rfl
    obtain rfl : w = Sample.world [(6, 1), (7, 1)] := by
      simpa [Sample.switchEvents, Sample.archiveEvents] using he
    obtain ⟨hhash, hfinalized⟩ := hgenesis rfl
    refine ⟨Branch.world_linked _ _, ?_⟩
    intro n hn
    obtain rfl : n = 0 := Nat.le_zero.mp (hfinalized ▸ hn)
    exact hhash.symm
  obtain ⟨s, hrun, hview⟩ := Transition.Reaches.exists_of_execute hvisible hcompute
  obtain ⟨row, hrow, hlink⟩ : ∃ row ∈ s.archiver.db.blocks.rows,
      row.link = ⟨1, [1, 5], [0, 0]⟩ := by
    rw [← List.mem_map, hview]
    simp
  obtain ⟨row', hrow', hlink'⟩ : ∃ row ∈ s.archiver.db.blocks.rows,
      row.link = ⟨2, [2, 7], [1, 6]⟩ := by
    rw [← List.mem_map, hview]
    simp
  simp only [BlockModel.link, BlockLink.mk.injEq] at hlink hlink'
  refine ⟨s, hrun, row, hrow, row', hrow', hlink.1, hlink'.1, ?_⟩
  rw [hlink.2.1, hlink'.2.2]
  decide

end Pipeline

end SubArchive
