import SubArchive.NoHole

/-!
# Runs with crashes

When the chain only grows and operations fail only by a crash of the whole
process, the tables are at every moment those of archiving the heights in order
from the genesis block, without a crash, up to some height.
-/

namespace SubArchive

/-! ## A chain that only grows -/

/-- What every state of a growing chain answers about a height, if it answers
at all. -/
structure ChainFacts where
  outcome : BlockNumber → StorageChanges × SignedBlock
  code : BlockNumber → Bytes
  metadata : BlockNumber → Bytes

namespace ChainFacts

variable {node : Node} {facts : ChainFacts} {w : World} {n : BlockNumber}

structure HoldIn (node : Node) (facts : ChainFacts) (w : World) : Prop where
  outcome : ∀ n p, node.executeBlockAndIntoStorageChanges w n = .ok (some p) → p = facts.outcome n
  genesis : ∃ p, node.executeBlockAndIntoStorageChanges w 0 = .ok (some p)
  code : ∀ n state, w.readonly.stateAt (.number n) = .ok state →
    state.storage codeKey = .ok (some (facts.code n))
  metadata : ∀ n metadata, node.metadata w n = .ok (.ok metadata) → metadata = facts.metadata n

/-- The `spec_version` of the code at a height; `0` where it cannot be read. -/
def specVersion (node : Node) (facts : ChainFacts) (n : BlockNumber) : ℕ :=
  match node.reader.versionOf (facts.code n) with
  | .ok version => version.specVersion
  | .error _ => 0

def message (node : Node) (facts : ChainFacts) (n : BlockNumber) : ArchiveSendMsg :=
  node.archiveSendMsg n (facts.outcome n).1 (facts.outcome n).2 (facts.specVersion node n)

def blockRow (node : Node) (facts : ChainFacts) (n : BlockNumber) : BlockModel :=
  (facts.message node n).model

def metadataRow (node : Node) (facts : ChainFacts) (n : BlockNumber) : MetadataModel :=
  metadataModel (facts.message node n) (facts.metadata n)

@[simp] theorem message_blockNum : (facts.message node n).model.blockNum = n := rfl

@[simp] theorem blockRow_blockNum : (facts.blockRow node n).blockNum = n := rfl

@[simp] theorem metadataRow_specVersion :
    (facts.metadataRow node n).specVersion = facts.specVersion node n := rfl

@[simp] theorem metadataRow_blockNum : (facts.metadataRow node n).blockNum = n := rfl

theorem archiveBuild_eq {cache cache' : RuntimeVersionCache} {msg : ArchiveSendMsg}
    (hfacts : facts.HoldIn node w)
    (hcollision : RuntimeVersionCache.NoCollision node.reader (Set.range facts.code))
    (hvalid : cache.Valid node.reader (Set.range facts.code))
    (hbuild : node.archiveBuild w cache n (facts.outcome n).1 (facts.outcome n).2 =
      .ok (msg, cache')) :
    msg = facts.message node n ∧ cache'.Valid node.reader (Set.range facts.code) := by
  obtain ⟨version, hget, rfl⟩ := Node.archiveBuild_eq_ok.mp hbuild
  rcases hstate : w.readonly.stateAt (.number n) with error | state
  · simp [RuntimeVersionCache.getById, hstate] at hget
  · obtain ⟨cache'', hget', hvalid'⟩ := RuntimeVersionCache.getById_of_valid hcollision hvalid
      hstate (hfacts.code n state hstate) (Set.mem_range_self n)
    rw [hget, Except.ok.injEq, Prod.mk.injEq] at hget'
    obtain ⟨hversion, rfl⟩ := hget'
    have hversion' : node.reader.versionOf (facts.code n) = .ok version := by
      rcases h : node.reader.versionOf (facts.code n) with error | v
      · simp [h, Except.map] at hversion
      · simpa [h, Except.map] using hversion.symm
    refine ⟨?_, hvalid'⟩
    rw [message, specVersion, hversion']

/-! ### A growing chain in memory -/

section Prefix

variable {branch shorter : Branch node.codec} {f g : BlockNumber}

def ofBranch (node : Node) (branch : Branch node.codec) : ChainFacts where
  outcome n :=
    match node.executeBlockAndIntoStorageChanges (branch.world 0) n with
    | .ok (some p) => p
    | _ => (⟨[], [], []⟩, ⟨⟨⟨[], 0, [], [], []⟩, []⟩, none⟩)
  code n :=
    match branch.at? n with
    | none => []
    | some block =>
        match block.state.storage codeKey with
        | .ok (some code) => code
        | _ => []
  metadata n :=
    match node.metadata (branch.world 0) n with
    | .ok (.ok metadata) => metadata
    | _ => []

theorem at?_of_shorter (hpre : shorter.blocks <+: branch.blocks) {block : ChainBlock}
    (h : shorter.at? n = some block) : branch.at? n = some block := by
  obtain ⟨rest, hrest⟩ := hpre
  have hlt : n < shorter.blocks.length := (List.getElem?_eq_some_iff.mp h).1
  rw [Branch.at?, ← hrest, List.getElem?_append_left hlt]
  exact h

theorem execute_of_shorter (hdistinct : branch.Distinct) (hdistinct' : shorter.Distinct)
    (hpre : shorter.blocks <+: branch.blocks) {block : ChainBlock}
    (hgenesis : n = 0 → block.header.parentHash = defaultHash) (h : shorter.at? n = some block) :
    node.executeBlockAndIntoStorageChanges (shorter.world f) n =
      node.executeBlockAndIntoStorageChanges (branch.world g) n := by
  have hparent : ∃ state, ∀ f, (shorter.backend f).stateAt (.hash block.header.parentHash) =
      .ok state ∧ (branch.backend f).stateAt (.hash block.header.parentHash) = .ok state := by
    cases n with
    | zero =>
        refine ⟨emptyState, fun f ↦ ?_⟩
        rw [hgenesis rfl]
        exact ⟨Branch.backend_stateAt_default, Branch.backend_stateAt_default⟩
    | succ n =>
        obtain ⟨parent, hat, hhash⟩ := Branch.hashAt_eq_some.mp (Branch.parentHash_eq h)
        refine ⟨parent.state, fun f ↦ ?_⟩
        rw [← hhash]
        exact ⟨Branch.backend_stateAt_hash hdistinct' hat,
          Branch.backend_stateAt_hash hdistinct (at?_of_shorter hpre hat)⟩
  obtain ⟨state, hstate⟩ := hparent
  have heq : (shorter.backend f).stateAt (.hash block.header.parentHash) =
      (branch.backend g).stateAt (.hash block.header.parentHash) :=
    (hstate f).1.trans (hstate g).2.symm
  exact Node.executeBlockAndIntoStorageChanges_congr (Branch.backend_getBlock h)
    (Branch.backend_getBlock (at?_of_shorter hpre h)) (fun _ ↦ rfl) heq heq

theorem holdIn_of_shorter (hdistinct : branch.Distinct) (hdistinct' : shorter.Distinct)
    (hpre : shorter.blocks <+: branch.blocks) {first : ChainBlock}
    (hfirst : shorter.at? 0 = some first) (hgenesis : first.header.parentHash = defaultHash)
    (hcode : ∀ n block, branch.at? n = some block →
      ∃ code, block.state.storage codeKey = .ok (some code)) :
    (ofBranch node branch).HoldIn node (shorter.world f) where
  outcome n p h := by
    have hblock := (Node.executeBlockAndIntoStorageChanges_eq_some.mp h).1
    obtain ⟨block, hat, -⟩ := Branch.at?_of_getBlock hblock
    have hgenesis' : n = 0 → block.header.parentHash = defaultHash := by
      rintro rfl
      rw [hfirst] at hat
      cases hat
      exact hgenesis
    have hsame := execute_of_shorter (f := f) (g := 0) hdistinct hdistinct' hpre hgenesis' hat
    rw [h] at hsame
    simp only [ofBranch, ← hsame]
  genesis := by
    have hstate : (shorter.backend f).stateAt (.hash first.header.parentHash) = .ok emptyState := by
      rw [hgenesis]
      exact Branch.backend_stateAt_default
    have hblock : (Node.archiveCore (shorter.world f)).getBlock 0 = .ok (some first.signed) :=
      Branch.backend_getBlock hfirst
    obtain ⟨storages, hchanges⟩ : ∃ storages, ((node.replayed (shorter.world f)
        first.signed).intoStorageChanges emptyState).1 = .ok storages := by
      unfold MockRuntimeApiImpl.intoStorageChanges
      split <;> exact ⟨_, rfl⟩
    refine ⟨(storages, first.signed), ?_⟩
    rw [Node.executeBlockAndIntoStorageChanges_eq_some]
    exact ⟨hblock, emptyState, hstate, hchanges⟩
  code n state h := by
    rcases hat : shorter.at? n with _ | block
    · exact absurd h (Branch.backend_stateAt_number_none hat state)
    · have hstate : block.state = state := by
        have h' : (shorter.backend f).stateAt (.number n) = .ok block.state :=
          Branch.backend_stateAt_number hat
        exact Except.ok.inj (h'.symm.trans h)
      have hat' := at?_of_shorter hpre hat
      obtain ⟨code, hcode⟩ := hcode n block hat'
      simp [ofBranch, hat', hcode, ← hstate]
  metadata n metadata h := by
    rcases hat : shorter.at? n with _ | block
    · obtain ⟨state, -, -, -, -, hstate, -⟩ := Node.metadata_eq_ok h
      exact absurd hstate (Branch.backend_stateAt_number_none hat state)
    · have hat' := at?_of_shorter hpre hat
      have hstate : (shorter.world f).main.stateAt (.number n) =
          (branch.world 0).main.stateAt (.number n) :=
        (Branch.backend_stateAt_number hat).trans (Branch.backend_stateAt_number hat').symm
      have hhash : (shorter.world f).main.blockchain.hash n =
          (branch.world 0).main.blockchain.hash n := by
        simp [Branch.world, Branch.backend, Branch.hashAt, hat, hat']
      have hsame : node.metadata (shorter.world f) n = node.metadata (branch.world 0) n :=
        Node.metadata_congr (fun _ ↦ rfl) hstate hhash
      rw [h] at hsame
      simp only [ofBranch, ← hsame]

end Prefix

end ChainFacts

/-! ## Archiving in order -/

/-- The tables after the heights below `k`, possibly with the metadata that
height `k` brings. -/
structure Database.UpTo (node : Node) (facts : ChainFacts) (k : ℕ) (db : Database) : Prop where
  blocks : db.blocks = .firsts (facts.blockRow node) k
  metadatas : db.metadatas = .firsts (facts.metadataRow node) k ∨
    db.metadatas = .firsts (facts.metadataRow node) (k + 1)

namespace Database.UpTo

variable {node : Node} {facts : ChainFacts} {db db' : Database} {k n : ℕ}

theorem empty : UpTo node facts 0 Database.empty := ⟨rfl, Or.inl rfl⟩

theorem stores_iff (h : UpTo node facts k db) : db.Stores n ↔ n < k := by
  rw [Database.Stores, h.blocks, KeyedTable.mem_keys_firsts]
  simp

theorem row_mem (h : UpTo node facts k db) (hn : n < k) :
    facts.blockRow node n ∈ db.blocks.rows := by
  rw [h.blocks, KeyedTable.mem_rows_firsts]
  refine ⟨n, hn, rfl, ?_⟩
  intro j hj
  exact Nat.ne_of_lt hj

theorem version_mem (h : UpTo node facts k db) (hn : n < k) :
    facts.specVersion node n ∈ db.metadatas.keys := by
  rcases h.metadatas with heq | heq
  · rw [heq, KeyedTable.mem_keys_firsts]
    exact ⟨n, hn, rfl⟩
  · rw [heq, KeyedTable.mem_keys_firsts]
    exact ⟨n, Nat.lt_succ_of_lt hn, rfl⟩

theorem insertMetadata (h : UpTo node facts k db) (hn : n ≤ k)
    (hmissing : facts.specVersion node n ∉ db.metadatas.keys)
    (hinsert : db.insertMetadata (facts.metadataRow node n) = some db') :
    UpTo node facts k db' := by
  obtain ⟨-, hmetadatas, hblocks⟩ := Database.insertMetadata_eq_some.mp hinsert
  obtain rfl : n = k := by
    by_contra hne
    exact hmissing (h.version_mem (Nat.lt_of_le_of_ne hn hne))
  refine ⟨hblocks.trans h.blocks, Or.inr ?_⟩
  rcases h.metadatas with heq | heq
  · rw [heq] at hmissing
    rw [hmetadatas, heq, KeyedTable.firsts_succ_of_notMem hmissing]
  · rw [heq, KeyedTable.mem_keys_firsts] at hmissing
    exact absurd ⟨n, Nat.lt_succ_self n, rfl⟩ hmissing

theorem insertBlock (h : UpTo node facts k db) (hn : n ≤ k)
    (hpresent : facts.specVersion node n ∈ db.metadatas.keys)
    (hinsert : db.insertBlock (facts.blockRow node n) = some db') :
    ∃ k', n < k' ∧ k ≤ k' ∧ UpTo node facts k' db' := by
  obtain ⟨-, hmetadatas, hblocks⟩ := Database.insertBlock_eq_some.mp hinsert
  rcases Nat.lt_or_eq_of_le hn with hlt | rfl
  · have hsame : db' = db := by
      apply Database.ext hmetadatas
      rw [hblocks, KeyedTable.upsert_of_mem (h.row_mem hlt)]
    exact ⟨k, hlt, le_rfl, hsame ▸ h⟩
  · refine ⟨n + 1, Nat.lt_succ_self n, Nat.le_succ n, ?_, ?_⟩
    · have hfresh : n ∉ (KeyedTable.firsts (facts.blockRow node) n :
          KeyedTable BlockNumber BlockModel BlockModel.blockNum).keys := by
        rw [← h.blocks]
        exact fun hmem ↦ lt_irrefl n (h.stores_iff.mp hmem)
      rw [hblocks, h.blocks]
      exact (KeyedTable.firsts_succ_of_notMem hfresh).symm
    · rw [hmetadatas]
      rcases h.metadatas with heq | heq
      · rw [heq] at hpresent ⊢
        exact Or.inl (KeyedTable.firsts_succ_of_mem hpresent).symm
      · exact Or.inl heq

end Database.UpTo

/-! ## The archiver -/

namespace Notifier

variable {node : Node} {facts : ChainFacts} {k k' : ℕ} {a b : Notifier} {msg : ArchiveSendMsg}

/-- The message of a height that is stored or the next to be. -/
def Known (node : Node) (facts : ChainFacts) (k : ℕ) (msg : ArchiveSendMsg) : Prop :=
  ∃ n ≤ k, msg = facts.message node n

theorem Known.mono (h : Known node facts k msg) (hk : k ≤ k') : Known node facts k' msg := by
  obtain ⟨n, hn, rfl⟩ := h
  exact ⟨n, hn.trans hk, rfl⟩

/-- The archiver is at work on a known message and has found out about its
metadata what is the case. -/
def OnCourse (node : Node) (facts : ChainFacts) (k : ℕ) (a : Notifier) : Prop :=
  match a.task with
  | .waiting | .panicked _ => True
  | .checkMetadata msg => Known node facts k msg
  | .getMetadata msg =>
      Known node facts k msg ∧ msg.model.specVersion ∉ a.db.metadatas.keys
  | .insertMetadata msg metadata =>
      Known node facts k msg ∧ msg.model.specVersion ∉ a.db.metadatas.keys ∧
        metadata = facts.metadata msg.model.blockNum
  | .sendMetadata msg _ | .insertBlock msg =>
      Known node facts k msg ∧ msg.model.specVersion ∈ a.db.metadatas.keys
  | .sendBlock msg => Known node facts k msg ∧ a.db.Stores msg.model.blockNum
  | .failed _ _ => False

/-- The database takes the insert that is pending. -/
def Accepts (a : Notifier) : Prop :=
  match a.task with
  | .insertMetadata msg metadata => a.db.insertMetadata (metadataModel msg metadata) ≠ none
  | .insertBlock msg => a.db.insertBlock msg.model ≠ none
  | _ => True

instance (a : Notifier) : Decidable a.Accepts := by
  unfold Accepts
  exact match a.task with
    | .insertMetadata _ _ | .insertBlock _ => inferInstanceAs (Decidable (_ ≠ _))
    | .waiting | .checkMetadata _ | .getMetadata _ | .sendMetadata _ _ | .sendBlock _
    | .failed _ _ | .panicked _ => instDecidableTrue

theorem onCourse_step {metadataAt : BlockNumber → Except Panic (Except Error Bytes)}
    (htables : a.db.UpTo node facts k) (hcourse : a.OnCourse node facts k) (haccepts : a.Accepts)
    (hmetadata : ∀ n metadata, metadataAt n = .ok (.ok metadata) → metadata = facts.metadata n)
    (hstep : Notifier.Step metadataAt a .ok b) :
    ∃ k', k ≤ k' ∧ b.db.UpTo node facts k' ∧ b.OnCourse node facts k' := by
  cases hstep with
  | metadataExists htask hexists =>
      simp only [OnCourse, htask] at hcourse
      exact ⟨k, le_rfl, htables, hcourse, hexists⟩
  | metadataMissing htask hmissing =>
      simp only [OnCourse, htask] at hcourse
      exact ⟨k, le_rfl, htables, hcourse, hmissing⟩
  | checkFails htask hreply => exact absurd rfl hreply
  | metadataRead htask hread =>
      simp only [OnCourse, htask] at hcourse
      exact ⟨k, le_rfl, htables, hcourse.1, hcourse.2, hmetadata _ _ hread⟩
  | metadataPanics message htask hread => exact ⟨k, le_rfl, htables, trivial⟩
  | @metadataInserted msg metadata db htask hinsert =>
      simp only [OnCourse, htask] at hcourse
      obtain ⟨hknown, hmissing, rfl⟩ := hcourse
      obtain ⟨n, hn, rfl⟩ := id hknown
      have htables' := htables.insertMetadata hn hmissing hinsert
      refine ⟨k, le_rfl, htables', hknown, ?_⟩
      rw [(Database.insertMetadata_eq_some.mp hinsert).2.1, KeyedTable.mem_keys_upsert]
      exact Or.inl rfl
  | metadataInsertFails error htask hreject =>
      simp only [Accepts, htask] at haccepts
      exact absurd (hreject rfl) haccepts
  | metadataSent htask =>
      simp only [OnCourse, htask] at hcourse
      exact ⟨k, le_rfl, htables, hcourse⟩
  | @blockInserted msg db htask hinsert =>
      simp only [OnCourse, htask] at hcourse
      obtain ⟨⟨n, hn, rfl⟩, hpresent⟩ := hcourse
      obtain ⟨k', hn', hk, htables'⟩ := htables.insertBlock hn hpresent hinsert
      exact ⟨k', hk, htables', ⟨n, hn.trans hk, rfl⟩, htables'.stores_iff.mpr hn'⟩
  | blockInsertFails error htask hreject =>
      simp only [Accepts, htask] at haccepts
      exact absurd (hreject rfl) haccepts
  | blockSent htask => exact ⟨k, le_rfl, htables, trivial⟩
  | errorDropped htask => simp [OnCourse, htask] at hcourse

end Notifier

/-! ## The pipeline -/

namespace Pipeline

variable {node : Node} {config : CliConfig} {world : World} {facts : ChainFacts}
  {s t : Pipeline} {e : Event} {n : BlockNumber}

def Succeeds (s : Pipeline) : Event → Prop
  | .initializer reply => reply = .ok
  | .archiver reply => reply = .ok ∧ s.archiver.Accepts
  | _ => True

instance (s : Pipeline) (e : Event) : Decidable (s.Succeeds e) :=
  match e with
  | .initializer reply => inferInstanceAs (Decidable (reply = .ok))
  | .archiver reply => inferInstanceAs (Decidable (reply = .ok ∧ s.archiver.Accepts))
  | .backend _ | .executor | .comparer | .receive | .crash => instDecidableTrue

/-- The chain only grows, and operations succeed unless the process crashes. -/
def CrashOnly (node : Node) (facts : ChainFacts) (s : Pipeline) (e : Event) : Prop :=
  s.Succeeds e ∧ ∀ world, e = .backend world → facts.HoldIn node world

structure Faithful (node : Node) (facts : ChainFacts) (s : Pipeline) : Prop where
  world : facts.HoldIn node s.world
  flow : s.Flow (·.Valid node.reader (Set.range facts.code))
    (fun number storages signedBlock ↦ (storages, signedBlock) = facts.outcome number)
    (fun msg ↦ ∃ number, msg = facts.message node number)

theorem faithful_step
    (hcollision : RuntimeVersionCache.NoCollision node.reader (Set.range facts.code))
    (h : s.Faithful node facts) (hallowed : s.CrashOnly node facts e)
    (hstep : Step node config s e t) : t.Faithful node facts := by
  have hworld : facts.HoldIn node t.world := by
    cases hstep with
    | backend world => exact hallowed.2 world rfl
    | _ => exact h.world
  refine ⟨hworld, flow_step RuntimeVersionCache.valid_new ?_ ?_ h.flow hstep⟩
  · exact fun number storages signedBlock ↦ h.world.outcome number (storages, signedBlock)
  · intro number storages signedBlock msg cache _ htask heq hbuild
    have hbuild' : node.archiveBuild s.world s.versionCache number (facts.outcome number).1
        (facts.outcome number).2 = .ok (msg, cache) := by
      rw [← heq]
      exact hbuild
    obtain ⟨hmsg, hcache⟩ :=
      ChainFacts.archiveBuild_eq h.world hcollision h.flow.cache hbuild'
    exact ⟨⟨number, hmsg⟩, hcache⟩

/-- A height that was reported is stored or on its way to the archiver. -/
def ReportsKept (s : Pipeline) : Prop :=
  (∀ message, s.archiver.task ≠ .panicked message) →
    ∀ n ∈ s.reports, s.archiver.db.Stores n ∨ n ∈ s.ahead

theorem mem_reports_of_step (hstep : Step node config s e t) (hn : n ∈ t.reports) :
    n ∈ s.reports ∨ node.archiveExecute s.world 0 = .ok none ∨
      ∃ msg, s.executor = .built n msg ∧ t.executor = .notifying n := by
  simp only [reports, List.mem_append] at hn ⊢
  cases hstep with
  | crash => simp [start, ComparerTask.holds, ExecutorTask.reports] at hn
  | genesisPassed htask hexecute => exact Or.inr (Or.inl hexecute)
  | @executorSends number msg htask =>
      simp only [ExecutorTask.reports, List.mem_singleton] at hn
      rcases hn with hn | rfl
      · exact Or.inl (Or.inl hn)
      · exact Or.inr (Or.inr ⟨msg, htask, rfl⟩)
  | executorReceives | executorPanics | executorExecutes | executorBuilds =>
      simp only [ExecutorTask.reports, List.not_mem_nil, or_false] at hn
      exact Or.inl (Or.inl hn)
  | executorNotifies htask | comparerDelays htask =>
      apply Or.inl
      simpa [htask, ExecutorTask.reports, ComparerTask.holds, or_assoc] using hn
  | comparerReceives htask hqueue =>
      apply Or.inl
      simpa [htask, hqueue, ComparerTask.holds, or_assoc] using hn
  | comparerAdvances | comparerResends =>
      simp only [ComparerTask.holds, List.not_mem_nil, false_or] at hn
      exact Or.inl (hn.imp_left Or.inr)
  | backend | initialized | initializerPanics | receives | archives => exact Or.inl hn

theorem reportsKept_step (h : s.ReportsKept) (hbacked : s.Backed)
    (hgenesis : node.archiveExecute s.world 0 ≠ .ok none)
    (hcourse : ∀ msg error, s.archiver.task ≠ .failed msg error)
    (hstep : Step node config s e t) : t.ReportsKept := by
  intro hlive n hn
  have hbefore := mem_reports_of_step hstep hn
  cases hstep with
  | crash => simp [start, reports, ComparerTask.holds, ExecutorTask.reports] at hn
  | @executorSends number msg htask =>
      have hahead : ∀ n, (n ∈ s.ahead ∨ n = number) → n ∈ ahead { s with
          archiverQueue := s.archiverQueue ++ [msg]
          archived := s.archived ++ [msg]
          executor := .notifying number } := by
        intro n hn
        simpa [ahead, hbacked.built number msg htask, or_assoc] using hn
      rcases hbefore with hn | hnone | ⟨msg', htask', -⟩
      · exact (h hlive n hn).imp_right fun hmem ↦ hahead n (Or.inl hmem)
      · exact absurd hnone hgenesis
      · rw [htask] at htask'
        cases htask'
        exact Or.inr (hahead n (Or.inr rfl))
  | @receives msg queue htask hqueue =>
      have hahead : ahead { s with
          archiver := { s.archiver with task := .checkMetadata msg }
          archiverQueue := queue } = s.ahead := by
        simp [ahead, htask, hqueue, ArchiveTask.msg?]
      rw [hahead]
      exact h (by simp [htask]) n hn
  | @archives reply archiver hstep =>
      cases blockEffect_of_step hstep with
      | keeps msg hmsg hmsg' hstores hunsent =>
          have hahead : ahead { s with archiver } = s.ahead := by
            rw [ahead_of_msg hmsg, ahead_of_msg (s := { s with archiver }) hmsg']
          rw [hahead]
          exact (h (live_of_msg hmsg) n hn).imp_left (hstores n).mpr
      | stores msg hmsg hmsg' hstores =>
          have hahead : ahead { s with archiver } = s.ahead := by
            rw [ahead_of_msg hmsg, ahead_of_msg (s := { s with archiver }) hmsg']
          rw [hahead]
          exact (h (live_of_msg hmsg) n hn).imp_left fun hn ↦ (hstores n).mpr (Or.inr hn)
      | finishes msg htask hwaiting hdb =>
          have hmsg : s.archiver.task.msg? = some msg := by rw [htask, ArchiveTask.msg?]
          have hmem := h (live_of_msg hmsg) n hn
          rw [ahead_of_msg hmsg, List.mem_cons] at hmem
          rw [ahead_of_waiting (s := { s with archiver }) hwaiting, hdb]
          rcases hmem with hstored | rfl | hrest
          · exact Or.inl hstored
          · exact Or.inl (hbacked.inserted msg htask)
          · exact Or.inr hrest
      | drops msg error htask => exact absurd htask (hcourse msg error)
      | panics message hpanicked => exact absurd hpanicked (hlive message)
  | genesisPassed htask hexecute => exact absurd hexecute hgenesis
  | backend | initialized | initializerPanics | executorReceives | executorPanics
  | executorExecutes | executorBuilds | executorNotifies | comparerReceives | comparerAdvances
  | comparerDelays | comparerResends =>
      rcases hbefore with hn | hnone | ⟨msg, hbuilt, hnotifying⟩
      · exact h hlive n hn
      · exact absurd hnone hgenesis
      · simp [hbuilt] at hnotifying

structure CrashInv (node : Node) (facts : ChainFacts) (s : Pipeline) : Prop where
  backed : s.Backed
  faithful : s.Faithful node facts
  reports : s.ReportsKept
  tables : ∃ k, s.archiver.db.UpTo node facts k ∧ s.archiver.OnCourse node facts k

theorem CrashInv.not_failed (h : s.CrashInv node facts) (msg : ArchiveSendMsg) (error : Error) :
    s.archiver.task ≠ .failed msg error := by
  obtain ⟨k, -, hcourse⟩ := h.tables
  intro htask
  simp [Notifier.OnCourse, htask] at hcourse

theorem CrashInv.losesNoHeight (h : s.CrashInv node facts) (e : Event) : s.LosesNoHeight e := by
  cases e with
  | archiver reply =>
      change s.DropsSafely
      unfold DropsSafely
      split
      · rename_i msg error htask
        exact absurd htask (h.not_failed msg error)
      · trivial
  | comparer =>
      change s.MovesOnSafely
      unfold MovesOnSafely
      split
      · trivial
      · rename_i number hcomparer hlive
        intro _
        apply h.reports hlive number
        simp [Pipeline.reports, hcomparer, ComparerTask.holds]
      · trivial
  | backend | crash | initializer | executor | receive => trivial

theorem crashInv_start {archiver : Notifier} {k : ℕ} (hconfig : config.resetForce = false)
    (hworld : facts.HoldIn node world) (htables : archiver.db.UpTo node facts k) :
    CrashInv node facts (start config world archiver) where
  backed := by
    apply backed_start (by simp [hconfig])
    intro n hn m hm
    exact htables.stores_iff.mpr (hm.trans (htables.stores_iff.mp hn))
  faithful := ⟨hworld, flow_start RuntimeVersionCache.valid_new⟩
  reports := by
    intro _ n hn
    simp [start, Pipeline.reports, ComparerTask.holds, ExecutorTask.reports] at hn
  tables := ⟨k, htables, trivial⟩

theorem crashInv_step (hconfig : config.resetForce = false)
    (hcollision : RuntimeVersionCache.NoCollision node.reader (Set.range facts.code))
    (h : s.CrashInv node facts) (hsorted : s.ahead.Pairwise (· ≤ ·))
    (hallowed : s.CrashOnly node facts e) (hstep : Step node config s e t) :
    t.CrashInv node facts := by
  have hbacked := backed_step (by simp [hconfig]) h.backed hsorted (h.losesNoHeight e) hstep
  have hfaithful := faithful_step hcollision h.faithful hallowed hstep
  have hreports : t.ReportsKept := by
    refine reportsKept_step h.reports h.backed ?_ h.not_failed hstep
    obtain ⟨p, hp⟩ := h.faithful.world.genesis
    rw [Node.archiveExecute_eq_some.mpr hp]
    simp
  refine ⟨hbacked, hfaithful, hreports, ?_⟩
  obtain ⟨k, htables, hcourse⟩ := h.tables
  cases hstep with
  | crash => exact ⟨k, htables, trivial⟩
  | @receives msg queue htask hqueue =>
      obtain ⟨number, hnumber⟩ := h.faithful.flow.queued msg (by simp [hqueue])
      refine ⟨k, htables, number, ?_, hnumber⟩
      -- every height below the next message is stored
      have hahead : s.ahead = number :: queue.map fun msg ↦ msg.model.blockNum := by
        simp [ahead_of_waiting htask, hqueue, hnumber]
      have hbelow := h.backed.stored_below hsorted (by simp [htask]) hahead
      by_contra hlt
      exact lt_irrefl k (htables.stores_iff.mp (hbelow k (not_le.mp hlt)))
  | @archives reply archiver hstep =>
      obtain ⟨rfl, haccepts⟩ := hallowed.1
      obtain ⟨k', -, htables', hcourse'⟩ :=
        Notifier.onCourse_step htables hcourse haccepts h.faithful.world.metadata hstep
      exact ⟨k', htables', hcourse'⟩
  | backend | initialized | initializerPanics | executorReceives | executorPanics | genesisPassed
  | executorExecutes | executorBuilds | executorSends | executorNotifies | comparerReceives
  | comparerAdvances | comparerDelays | comparerResends => exact ⟨k, htables, hcourse⟩

def Sample.crashEvents : List Event :=
  [.initializer .ok] ++ Sample.archiveEvents ++
  [.archiver .ok, .archiver .ok, .archiver .ok, .crash, .initializer .ok] ++
  Sample.archiveEvents ++
  [.archiver .ok, .archiver .ok, .archiver .ok, .executor, .comparer, .comparer] ++
  Sample.archiveEvents ++ [.archiver .ok, .archiver .ok, .archiver .ok, .crash]

end Pipeline

end SubArchive
