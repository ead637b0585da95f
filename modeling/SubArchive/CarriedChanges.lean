import SubArchive.Chain

/-!
# What a message carries

The row and the payload of a block have a field for its main and one for its
child storage changes.  `archive` fills the first and leaves the second empty.
-/

namespace SubArchive

abbrev ChildMap := KeyedTable Bytes (Bytes × StorageMap) Prod.fst

/-- `serde_json::json!` of a map of maps -/
def ChildMap.toJson (map : ChildMap) : JsonValue :=
  .object (map.rows.map fun (key, data) ↦ (toHex key, data.toJson))

/-- Read the child changes of a row back: no object stands for no changes. -/
def childChangesOfJson : JsonValue → Option (List (Bytes × List (Bytes × Option Bytes)))
  | .null => some []
  | .object fields => fields.mapM fun (key, value) ↦ do
      let key ← ofHex key
      let data ← changesOfJson value
      return (key, data)
  | .string _ => none

theorem childChangesOfJson_toJson (map : ChildMap) :
    childChangesOfJson map.toJson = some (map.rows.map fun (key, data) ↦ (key, data.rows)) := by
  have hrow : ∀ row : Bytes × StorageMap,
      (do
        let key ← ofHex (toHex row.1)
        let data ← changesOfJson row.2.toJson
        return (key, data)) = some (row.1, row.2.rows) := by
    intro row
    simp
  exact mapM_map_eq_some hrow map.rows

/-- The changes with distinct keys on every level, as maps hold them. -/
structure Changes.DistinctKeys (changes : Changes) : Prop where
  main : (changes.main.map Prod.fst).Nodup
  child : (changes.child.map Prod.fst).Nodup
  inner : ∀ entry ∈ changes.child, (entry.2.map Prod.fst).Nodup

/-- The storage of a chain specification as changes of the empty storage. -/
def Storage.asChanges (storage : Storage) : Changes where
  main := storage.top.map fun (key, data) ↦ (key, some data)
  child := storage.childrenDefault.map fun (key, data) ↦
    (key, data.map fun (key, data) ↦ (key, some data))

def StorageChanges.changes (storages : StorageChanges) : Changes where
  main := storages.mainStorageChanges
  child := storages.childStorageChanges

/-- What the message for a height has to carry. -/
def Node.changesAt (node : Node) (n : BlockNumber) (storages : StorageChanges) : Changes :=
  if n = 0 then node.genesisStorage.asChanges else storages.changes

/-- Row and payload both give the changes back. -/
structure ArchiveSendMsg.Carries (msg : ArchiveSendMsg) (changes : Changes) : Prop where
  mainModel : changesOfJson msg.model.mainChanges = some changes.main
  mainPayload : msg.payload.mainChanges.rows = changes.main
  childModel : childChangesOfJson msg.model.childChanges = some changes.child
  childPayload : (msg.payload.childChanges.rows.map fun (key, data) ↦ (key, data.rows)) =
    changes.child

namespace Node

variable {node : Node} {world : World} {cache cache' : RuntimeVersionCache} {n : BlockNumber}
  {storages : StorageChanges} {signedBlock : SignedBlock} {msg : ArchiveSendMsg}

theorem storagesMap_eq_ofList :
    node.storagesMap n storages = .ofList (node.changesAt n storages).main := by
  unfold storagesMap changesAt
  split <;> rfl

theorem archiveBuild_mainChanges (hkeys : (node.changesAt n storages).DistinctKeys)
    (hbuild : node.archiveBuild world cache n storages signedBlock = .ok (msg, cache')) :
    changesOfJson msg.model.mainChanges = some (node.changesAt n storages).main ∧
      msg.payload.mainChanges.rows = (node.changesAt n storages).main := by
  obtain ⟨version, -, rfl⟩ := archiveBuild_eq_ok.mp hbuild
  have hrows : (node.storagesMap n storages).rows = (node.changesAt n storages).main := by
    rw [storagesMap_eq_ofList]
    exact KeyedTable.rows_ofList hkeys.main
  constructor
  · have hdecode := changesOfJson_toJson (node.storagesMap n storages)
    rw [hrows] at hdecode
    exact hdecode
  · exact hrows

/-- What both forms say about child tries is the same, and nothing. -/
theorem archiveBuild_childChanges
    (hbuild : node.archiveBuild world cache n storages signedBlock = .ok (msg, cache')) :
    msg.payload.childChanges = .empty ∧
      childChangesOfJson msg.model.childChanges =
        childChangesOfJson (ChildMap.toJson msg.payload.childChanges) := by
  obtain ⟨version, -, rfl⟩ := archiveBuild_eq_ok.mp hbuild
  refine ⟨rfl, ?_⟩
  rw [childChangesOfJson_toJson]
  rfl

/-- A message carries all changes exactly when there are none in child
tries. -/
theorem carries_iff (hkeys : (node.changesAt n storages).DistinctKeys)
    (hbuild : node.archiveBuild world cache n storages signedBlock = .ok (msg, cache')) :
    msg.Carries (node.changesAt n storages) ↔ (node.changesAt n storages).child = [] := by
  obtain ⟨hmodel, hpayload⟩ := archiveBuild_mainChanges hkeys hbuild
  obtain ⟨hempty, hagree⟩ := archiveBuild_childChanges hbuild
  constructor
  · intro hcarries
    have hchild := hcarries.childPayload
    rw [hempty] at hchild
    exact hchild.symm
  · intro hchild
    have hread : (msg.payload.childChanges.rows.map fun (key, data) ↦ (key, data.rows)) =
        (node.changesAt n storages).child := by
      rw [hempty, hchild]
      rfl
    exact {
      mainModel := hmodel
      mainPayload := hpayload
      childModel := by rw [hagree, childChangesOfJson_toJson, hread]
      childPayload := hread }

/-- A deletion and an empty value. -/
theorem carries_deletion : ∃ msg cache,
    Sample.node.archiveBuild (Sample.world [(5, 1)]) .new 1 ⟨[([1], none), ([], some [])], [], [5]⟩
      (Sample.block 1 [0, 0] 5 1).signed = .ok (msg, cache) ∧
    msg.Carries ⟨[([1], none), ([], some [])], []⟩ := by
  have hbuild : Sample.node.archiveBuild (Sample.world [(5, 1)]) .new 1
      ⟨[([1], none), ([], some [])], [], [5]⟩ (Sample.block 1 [0, 0] 5 1).signed = .ok (_, _) :=
    archiveBuild_eq_ok.mpr ⟨⟨[], [], 0, 1, 0, [], 1⟩, rfl, rfl⟩
  refine ⟨_, _, hbuild, (carries_iff ⟨?_, ?_, ?_⟩ hbuild).mpr rfl⟩
  · decide
  · decide
  · decide

end Node

/-- A node whose blocks also set a key of a child trie. -/
def Sample.childNode : Node :=
  { Sample.node with
    engine := { Sample.engine with
      call := fun code state method callData pending ↦
        match Sample.engine.call code state method callData pending with
        | (.ok bytes, changes, root) =>
            (.ok bytes, { changes with child := [([9], [([1], some [2])])] }, root)
        | failed => failed } }

/-- The child changes of the block are in neither form. -/
theorem Node.carries_no_child_changes : ∃ storages signedBlock msg cache,
    Sample.childNode.executeBlockAndIntoStorageChanges (Sample.world [(5, 1)]) 1 =
      .ok (some (storages, signedBlock)) ∧
    Sample.childNode.archive (Sample.world [(5, 1)]) .new 1 = .ok (some msg, cache) ∧
    (Sample.childNode.changesAt 1 storages).DistinctKeys ∧
    childChangesOfJson msg.model.childChanges = some [] ∧ msg.payload.childChanges.rows = [] ∧
    ¬ msg.Carries (Sample.childNode.changesAt 1 storages) := by
  have hexecute : Sample.childNode.executeBlockAndIntoStorageChanges (Sample.world [(5, 1)]) 1 =
      .ok (some (⟨[([1], some [5])], [([9], [([1], some [2])])], [5]⟩,
        (Sample.block 1 [0, 0] 5 1).signed)) := by
    decide +kernel
  have hbuild : Sample.childNode.archiveBuild (Sample.world [(5, 1)]) .new 1
      ⟨[([1], some [5])], [([9], [([1], some [2])])], [5]⟩
      (Sample.block 1 [0, 0] 5 1).signed = .ok (_, _) :=
    archiveBuild_eq_ok.mpr ⟨⟨[], [], 0, 1, 0, [], 1⟩, rfl, rfl⟩
  refine ⟨_, _, _, _, hexecute, archive_eq_some.mpr ⟨_, _, hexecute, hbuild⟩,
    ⟨by decide, by decide, by decide⟩, rfl, rfl, ?_⟩
  intro hcarries
  exact absurd hcarries.childPayload (by decide)

end SubArchive
