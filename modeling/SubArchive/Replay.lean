import SubArchive.CrashEquivalence
import SubArchive.Import
import SubArchive.Library.Patch

/-!
# Replaying the archive

The main changes of the stored rows, folded in the order of their heights over
the empty map, give the top-level storage after the last of them: each row of
an imported block holds the changes that import committed, and the genesis row
the chain specification's storage.
-/

namespace SubArchive

/-- `well_known_keys::CHILD_STORAGE_KEY_PREFIX`, `:child_storage:` -/
def childStorageKeyPrefix : Bytes :=
  [58, 99, 104, 105, 108, 100, 95, 115, 116, 111, 114, 97, 103, 101, 58]

/-- The keys that do not hold the root of a child trie. -/
def topKeys : Set Bytes := {key | ¬ childStorageKeyPrefix <+: key}

/-- The changes list the keys at which the states differ, with the data of the
later one. -/
def ListsDifference (changes : List (Bytes × Option Bytes)) (state state' : StateBackend) : Prop :=
  (changes.map Prod.fst).Nodup ∧ ∀ key ∈ topKeys, ∃ data data',
    state.storage key = .ok data ∧ state'.storage key = .ok data' ∧
      ∀ change, (key, change) ∈ changes ↔ data ≠ data' ∧ change = data'

def BuiltFrom (storage : Storage) (state : StateBackend) : Prop :=
  (storage.top.map Prod.fst).Nodup ∧ ∀ key ∈ topKeys, ∃ data,
    state.storage key = .ok data ∧ ∀ value, (key, value) ∈ storage.top ↔ data = some value

namespace Branch

/-- The genesis state is built from the chain specification, and every other
block was imported by execution on the state of its parent, with one post
digest, its changes being the difference of the two states. -/
structure Imported (node : Node) (branch : Branch node.codec) : Prop where
  genesis : ∀ first, branch.at? 0 = some first → BuiltFrom node.genesisStorage first.state
  executed : ∀ n parent child, branch.at? n = some parent → branch.at? (n + 1) = some child →
    ∃ w₀ importingBlock importBlock storages item,
      (node.client w₀).Executes importingBlock importBlock storages ∧
      importBlock.postDigests = [item] ∧ child.header = importBlock.post ∧
      importBlock.body = some child.signed.block.extrinsics ∧
      w₀.main.stateAt (.hash importBlock.header.parentHash) = .ok parent.state ∧
      ListsDifference storages.mainStorageChanges parent.state child.state

/-- The top-level storage after the first `n` blocks. -/
def topAfter {codec : Codec} (branch : Branch codec) : ℕ → Bytes → Option Bytes
  | 0, _ => none
  | n + 1, key =>
      match branch.at? n with
      | none => none
      | some block =>
          match block.state.storage key with
          | .ok data => data
          | .error _ => none

/-- The changes of the row lead from the state before its block to the state
after it. -/
def Leads {codec : Codec} (branch : Branch codec) (row : BlockModel) : Prop :=
  ∃ block changes, branch.at? row.blockNum = some block ∧
    changesOfJson row.mainChanges = some changes ∧
    ∀ key ∈ topKeys, Patch.apply changes (branch.topAfter row.blockNum) key =
      branch.topAfter (row.blockNum + 1) key

theorem topAfter_succ {codec : Codec} {branch : Branch codec} {n : ℕ} {block : ChainBlock}
    {key : Bytes} {data : Option Bytes} (hat : branch.at? n = some block)
    (hdata : block.state.storage key = .ok data) : branch.topAfter (n + 1) key = data := by
  simp [topAfter, hat, hdata]

end Branch

theorem Branch.Imported.readable {node : Node} {branch : Branch node.codec} {n : BlockNumber}
    {block : ChainBlock} (h : branch.Imported node) (hat : branch.at? n = some block) :
    ∀ key ∈ topKeys, ∃ data, block.state.storage key = .ok data := by
  intro key hkey
  cases n with
  | zero =>
      obtain ⟨data, hdata, -⟩ := (h.genesis block hat).2 key hkey
      exact ⟨data, hdata⟩
  | succ m =>
      obtain ⟨parent, hparent, -⟩ := Branch.hashAt_eq_some.mp (Branch.parentHash_eq hat)
      obtain ⟨_, _, _, _, _, _, _, _, _, _, -, hlists⟩ := h.executed m parent block hparent hat
      obtain ⟨-, data, -, hdata, -⟩ := hlists key hkey
      exact ⟨data, hdata⟩

/-- One backend for client and archive core, on the branch. -/
structure World.Local {codec : Codec} (w : World) (branch : Branch codec) : Prop where
  same : w.main = w.readonly
  presents : w.readonly.Presents branch
  tries : ∀ id, w.main.changesTriesStateAtBlock id = .ok ()

namespace Database

def changesAt (db : Database) (n : BlockNumber) : List (Bytes × Option Bytes) :=
  ((db.blocks.find? n).bind fun row ↦ changesOfJson row.mainChanges).getD []

/-- Fold the main changes of the rows `0, ..., k` over the empty map. -/
def replay (db : Database) (k : BlockNumber) : Bytes → Option Bytes :=
  Patch.replay db.changesAt (fun _ ↦ none) (k + 1)

theorem replay_eq {codec : Codec} {branch : Branch codec} {db : Database} {k : BlockNumber}
    (hleads : ∀ row ∈ db.blocks.rows, branch.Leads row) (hstored : ∀ n ≤ k, db.Stores n) :
    ∀ key ∈ topKeys, db.replay k key = branch.topAfter (k + 1) key := by
  intro key hkey
  have hpatches : ∀ n < k + 1,
      Patch.apply (db.changesAt n) (branch.topAfter n) key = branch.topAfter (n + 1) key := by
    intro n hn
    obtain ⟨row, hrow, rfl⟩ := KeyedTable.mem_keys.mp (hstored n (Nat.lt_succ_iff.mp hn))
    obtain ⟨block, changes, -, hchanges, happly⟩ := hleads row hrow
    have hat : db.changesAt row.blockNum = changes := by
      have hfind : db.blocks.find? row.blockNum = some row :=
        KeyedTable.find?_eq_some_iff.mpr ⟨hrow, rfl⟩
      simp [changesAt, hfind, hchanges]
    rw [hat]
    exact happly key hkey
  exact Patch.replay_eq hpatches

end Database

namespace Pipeline

variable {node : Node} {config : CliConfig} {world : World} {branch : Branch node.codec}
  {s t : Pipeline} {e : Event}

/-- The storage changes of a block that is not the genesis block are the
difference between the states of its parent and itself. -/
def Differs (branch : Branch node.codec) (n : BlockNumber) (storages : StorageChanges) : Prop :=
  ∃ block, branch.at? n = some block ∧ ∀ m, n = m + 1 → ∃ parent, branch.at? m = some parent ∧
    ListsDifference storages.mainStorageChanges parent.state block.state

theorem differs_of_execute {w : World} {n : BlockNumber} {storages : StorageChanges}
    {signedBlock : SignedBlock} (himported : branch.Imported node) (hworld : w.Local branch)
    (hexecute : node.executeBlockAndIntoStorageChanges w n =
      .ok (some (storages, signedBlock))) : Differs branch n storages := by
  obtain ⟨hblock, state, hstate, -⟩ := Node.executeBlockAndIntoStorageChanges_eq_some.mp hexecute
  obtain ⟨child, hat, rfl⟩ := hworld.presents.block n signedBlock hblock
  refine ⟨child, hat, ?_⟩
  rintro m rfl
  obtain ⟨parent, hparent, hhash⟩ := Branch.hashAt_eq_some.mp (Branch.parentHash_eq hat)
  refine ⟨parent, hparent, ?_⟩
  obtain ⟨w₀, importingBlock, importBlock, storages', item, himport, hitem, hheader, hbody,
    hstate₀, hdifference⟩ := himported.executed m parent child hparent hat
  have hpost : importBlock.header.parentHash = child.header.parentHash := by
    rw [hheader, BlockImportParams.post, hitem, List.foldl_cons, List.foldl_nil,
      Header.digestPush_parentHash]
  have hreadonly : w.readonly.stateAt (.hash importBlock.header.parentHash) =
      w₀.main.stateAt (.hash importBlock.header.parentHash) := by
    have hown : parent.state = state := hworld.presents.stateByHash m parent state hparent (by
      rw [hhash]
      exact hstate)
    rw [hstate₀, hpost, hown]
    exact hstate
  have htries : w.main.changesTriesStateAtBlock (.hash importBlock.header.parentHash) =
      w₀.main.changesTriesStateAtBlock (.hash importBlock.header.parentHash) := by
    obtain ⟨body, bytes, -, -, hbytes, -⟩ := himport.checked
    obtain ⟨-, -, -, htries, -⟩ := LocalCallExecutor.callStateMachine_eq_ok hbytes
    rw [hworld.tries]
    exact htries.symm
  have hreplayed := Node.executeBlockAndIntoStorageChanges_of_import himport hitem hheader hbody
    hblock htries (hworld.same ▸ hreadonly) hreadonly
  rw [hexecute, Except.ok.injEq, Option.some.injEq, Prod.mk.injEq] at hreplayed
  rw [hreplayed.1]
  exact hdifference

theorem leads_of_build {n : BlockNumber} {storages : StorageChanges} {signedBlock : SignedBlock}
    (himported : branch.Imported node) (hdiffers : Differs branch n storages) (specVersion : ℕ) :
    branch.Leads (node.archiveSendMsg n storages signedBlock specVersion).model := by
  obtain ⟨block, hat, hparent⟩ := hdiffers
  refine ⟨block, (node.storagesMap n storages).rows, hat, ?_, ?_⟩
  · exact changesOfJson_toJson (node.storagesMap n storages)
  · intro key hkey
    change Patch.apply (node.storagesMap n storages).rows (branch.topAfter n) key =
      branch.topAfter (n + 1) key
    cases n with
    | zero =>
        obtain ⟨hnodup, hbuilt⟩ := himported.genesis block hat
        obtain ⟨data, hdata, htop⟩ := hbuilt key hkey
        have hkeys : ((node.genesisStorage.top.map fun entry ↦ (entry.1, some entry.2)).map
            Prod.fst).Nodup := by
          simpa [List.map_map, Function.comp_def] using hnodup
        have hrows : (node.storagesMap 0 storages).rows =
            node.genesisStorage.top.map fun entry ↦ (entry.1, some entry.2) :=
          KeyedTable.rows_ofList hkeys
        have hdiff : ∀ change, (key, change) ∈ node.genesisStorage.top.map
            (fun entry ↦ (entry.1, some entry.2)) ↔
            branch.topAfter 0 key ≠ branch.topAfter 1 key ∧ change = branch.topAfter 1 key := by
          intro change
          rw [Branch.topAfter_succ hat hdata]
          constructor
          · intro hmem
            obtain ⟨⟨key', value⟩, hentry, heq⟩ := List.mem_map.mp hmem
            obtain ⟨rfl, rfl⟩ : key' = key ∧ some value = change := by simpa using heq
            have hvalue : data = some value := (htop value).mp hentry
            exact ⟨by simp [Branch.topAfter, hvalue], hvalue.symm⟩
          · rintro ⟨hne, rfl⟩
            obtain ⟨value, rfl⟩ : ∃ value, change = some value :=
              Option.ne_none_iff_exists'.mp (Ne.symm hne)
            exact List.mem_map.mpr ⟨(key, value), (htop value).mpr rfl, rfl⟩
        rw [hrows]
        exact Patch.apply_eq_of_diff hkeys hdiff
    | succ m =>
        obtain ⟨parent, hparent, hnodup, hlists⟩ := hparent m rfl
        obtain ⟨data, data', hdata, hdata', hchange⟩ := hlists key hkey
        have hrows : (node.storagesMap (m + 1) storages).rows = storages.mainStorageChanges :=
          KeyedTable.rows_ofList hnodup
        rw [hrows]
        apply Patch.apply_eq_of_diff hnodup
        rw [Branch.topAfter_succ hparent hdata, Branch.topAfter_succ hat hdata']
        exact hchange

structure ReplayInv (branch : Branch node.codec) (s : Pipeline) : Prop where
  world : s.world.Local branch
  flow : s.Flow (fun _ ↦ True) (fun n storages _ ↦ Differs branch n storages)
    (fun msg ↦ branch.Leads msg.model)
  stored : ∀ row ∈ s.archiver.db.blocks.rows, ∃ msg : ArchiveSendMsg,
    branch.Leads msg.model ∧ msg.model = row

theorem replayInv_step (himported : branch.Imported node) (h : s.ReplayInv branch)
    (hlocal : ∀ w, e = .backend w → w.Local branch) (hstep : Step node config s e t) :
    t.ReplayInv branch := by
  have hworld : t.world.Local branch := by
    cases hstep with
    | backend w => exact hlocal w rfl
    | _ => exact h.world
  refine ⟨hworld, flow_step trivial ?_ ?_ h.flow hstep, h.flow.stored hstep h.stored⟩
  · exact fun _ _ _ ↦ differs_of_execute himported h.world
  · intro number storages signedBlock msg cache _ _ hdiffers hbuild
    obtain ⟨version, -, rfl⟩ := Node.archiveBuild_eq_ok.mp hbuild
    exact ⟨leads_of_build himported hdiffers version.specVersion, trivial⟩

def Sample.sealed : BlockImportParams where
  header := (Sample.block 1 [0, 0] 5 1).header.digestPop
  postDigests := [.seal [] []]
  body := some [[5], [1]]
  storageChanges := none
  allowMissingState := false

theorem Sample.storage_of_ne {value version : UInt8} {key : Bytes} (hone : key ≠ [1])
    (hcode : key ≠ codeKey) : (Sample.state value version).storage key = .ok none := by
  simp [Sample.state, hone, hcode]

theorem Sample.imported : (Sample.branch [(5, 1)]).Imported Sample.node where
  genesis first hat := by
    obtain rfl : Sample.block 0 defaultHash 0 1 = first := Option.some.inj hat
    have htop : Sample.node.genesisStorage.top = [([1], [0]), (codeKey, [1])] := rfl
    have hne : codeKey ≠ ([1] : Bytes) := by decide
    refine ⟨by decide, ?_⟩
    intro key _
    rw [htop]
    by_cases hone : key = [1]
    · subst hone
      exact ⟨some [0], rfl, by simp [hne, eq_comm]⟩
    by_cases hcode : key = codeKey
    · subst hcode
      exact ⟨some [1], rfl, by simp [hne, eq_comm]⟩
    · exact ⟨none, Sample.storage_of_ne hone hcode, by simp [hone, hcode]⟩
  executed n parent child hparent hchild := by
    obtain rfl : n = 0 := by
      have hlt : n + 1 < 2 := (List.getElem?_eq_some_iff.mp hchild).1
      exact Nat.lt_one_iff.mp (Nat.lt_of_succ_lt_succ hlt)
    obtain rfl : Sample.block 0 defaultHash 0 1 = parent := Option.some.inj hparent
    obtain rfl : Sample.block 1 [0, 0] 5 1 = child := Option.some.inj hchild
    have hne : codeKey ≠ ([1] : Bytes) := by decide
    refine ⟨Sample.world [], none, Sample.sealed, ⟨[([1], some [5])], [], [5]⟩, .seal [] [],
      ⟨rfl, by decide +kernel⟩, rfl, rfl, rfl, rfl, by decide, ?_⟩
    intro key _
    by_cases hone : key = [1]
    · subst hone
      exact ⟨some [0], some [5], rfl, rfl, by simp⟩
    by_cases hcode : key = codeKey
    · subst hcode
      exact ⟨some [1], some [1], rfl, rfl, by simp [hne]⟩
    · exact ⟨none, none, Sample.storage_of_ne hone hcode, Sample.storage_of_ne hone hcode,
        by simp [hone]⟩

theorem Sample.local : (Sample.world [(5, 1)]).Local (Sample.branch [(5, 1)]) := by
  have hdistinct : (Sample.branch [(5, 1)]).Distinct := by
    unfold Branch.Distinct
    decide +kernel
  exact ⟨rfl, Branch.backend_presents hdistinct 0, fun _ ↦ rfl⟩

def Sample.replayEvents : List Event :=
  [.initializer .ok] ++ Sample.archiveEvents ++
  [.archiver .ok, .archiver .ok, .archiver .ok, .archiver .ok, .archiver .ok, .archiver .ok,
    .executor, .comparer, .comparer] ++ Sample.archiveEvents ++ [.archiver .ok, .archiver .ok]

/-- Every insert is accepted and its reply arrives. -/
def InsertsSucceed (s : Pipeline) (e : Event) : Prop :=
  match e, s.archiver.task with
  | .archiver reply, .insertMetadata _ _ | .archiver reply, .insertBlock _ =>
      reply = .ok ∧ s.archiver.Accepts
  | _, _ => True

instance (s : Pipeline) (e : Event) : Decidable (s.InsertsSucceed e) := by
  unfold InsertsSucceed
  exact match e, s.archiver.task with
    | .archiver reply, .insertMetadata _ _ | .archiver reply, .insertBlock _ =>
        inferInstanceAs (Decidable (reply = .ok ∧ s.archiver.Accepts))
    | .archiver _, .waiting | .archiver _, .checkMetadata _ | .archiver _, .getMetadata _
    | .archiver _, .sendMetadata _ _ | .archiver _, .sendBlock _ | .archiver _, .failed _ _
    | .archiver _, .panicked _ | .backend _, _ | .initializer _, _ | .executor, _ | .comparer, _
    | .receive, _ | .crash, _ => instDecidableTrue

/-- The metadata of the genesis block is stored but not published; its row is
left out, and block one is stored. -/
def Sample.unpublishedEvents : List Event :=
  [.initializer .ok] ++ Sample.archiveEvents ++
  [.archiver .ok, .archiver .ok, .archiver .ok, .archiver (.failed "broker"), .archiver .ok,
    .executor, .comparer, .comparer] ++ Sample.archiveEvents ++ [.archiver .ok, .archiver .ok]

end Pipeline

end SubArchive
