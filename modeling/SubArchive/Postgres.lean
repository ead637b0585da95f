import Mathlib.Data.List.MinMax
import SubArchive.Messages

/-!
# The database

The tables `metadatas` and `blocks` as the migrations declare them, with the
queries of `archive_postgres::database`.  The foreign key and the partitions
of `blocks` are fields of `Database`, so a table that breaks them cannot be
built; an insert that would break them is rejected.
-/

namespace SubArchive

/-- `blocks_0` to `blocks_9` -/
def partitions : List (ℕ × ℕ) :=
  (List.range 10).map fun i ↦ (i * 1000000, (i + 1) * 1000000)

def inPartition (blockNum : BlockNumber) : Bool :=
  partitions.any fun (lower, upper) ↦ lower ≤ blockNum && blockNum < upper

structure Database where
  metadatas : KeyedTable ℕ MetadataModel MetadataModel.specVersion
  blocks : KeyedTable BlockNumber BlockModel BlockModel.blockNum
  references : ∀ row ∈ blocks.rows, row.specVersion ∈ metadatas.keys
  partitioned : ∀ row ∈ blocks.rows, inPartition row.blockNum

namespace Database

def empty : Database := ⟨.empty, .empty, by simp, by simp⟩

@[ext] theorem ext {db db' : Database} (hmetadatas : db.metadatas = db'.metadatas)
    (hblocks : db.blocks = db'.blocks) : db = db' := by
  cases db
  cases db'
  cases hmetadatas
  cases hblocks
  rfl

/-- `InsertModel for MetadataModel`; a `spec_version` past `i32` is negative as
an `integer` and fails the check. -/
def insertMetadata (db : Database) (model : MetadataModel) : Option Database :=
  if model.specVersion < 2147483648 then
    some {
      metadatas := db.metadatas.upsert model
      blocks := db.blocks
      references := fun row hrow ↦
        KeyedTable.mem_keys_upsert.mpr (Or.inr (db.references row hrow))
      partitioned := db.partitioned }
  else none

/-- `InsertModel for BlockModel`: the foreign key, the check on `block_num` and
the partitions. -/
def insertBlock (db : Database) (model : BlockModel) : Option Database :=
  if h : model.specVersion ∈ db.metadatas.keys ∧ model.blockNum < 2147483647 ∧
      inPartition model.blockNum then
    some {
      metadatas := db.metadatas
      blocks := db.blocks.upsert model
      references := fun row hrow ↦ by
        rcases KeyedTable.mem_rows_upsert.mp hrow with rfl | ⟨hold, -⟩
        · exact h.1
        · exact db.references row hold
      partitioned := fun row hrow ↦ by
        rcases KeyedTable.mem_rows_upsert.mp hrow with rfl | ⟨hold, -⟩
        · exact h.2.2
        · exact db.partitioned row hold }
  else none

/-- `SELECT EXISTS(SELECT spec_version FROM metadatas WHERE spec_version = $1)` -/
def checkIfMetadataExists (db : Database) (specVersion : ℕ) : Bool :=
  specVersion ∈ db.metadatas.keys

/-- `SELECT MAX(block_num) FROM blocks` -/
def maxBlockNum (db : Database) : Option BlockNumber := db.blocks.keys.max?

def Stores (db : Database) (n : BlockNumber) : Prop := n ∈ db.blocks.keys

instance (db : Database) (n : BlockNumber) : Decidable (db.Stores n) :=
  inferInstanceAs (Decidable (n ∈ db.blocks.keys))

variable {db db' : Database}

@[simp] theorem not_stores_empty (n : BlockNumber) : ¬ empty.Stores n := by
  simp [Stores, empty]

@[simp] theorem checkIfMetadataExists_iff {specVersion : ℕ} :
    db.checkIfMetadataExists specVersion = true ↔ specVersion ∈ db.metadatas.keys := by
  simp [checkIfMetadataExists]

theorem insertMetadata_eq_some {model : MetadataModel} :
    db.insertMetadata model = some db' ↔
      model.specVersion < 2147483648 ∧ db'.metadatas = db.metadatas.upsert model ∧
        db'.blocks = db.blocks := by
  unfold insertMetadata
  split
  · rename_i hversion
    rw [Option.some.injEq, Database.ext_iff]
    constructor
    · rintro ⟨hmetadatas, hblocks⟩
      exact ⟨hversion, hmetadatas.symm, hblocks.symm⟩
    · rintro ⟨-, hmetadatas, hblocks⟩
      exact ⟨hmetadatas.symm, hblocks.symm⟩
  · rename_i hversion
    constructor
    · exact fun h ↦ nomatch h
    · exact fun h ↦ absurd h.1 hversion

theorem insertBlock_eq_some {model : BlockModel} :
    db.insertBlock model = some db' ↔
      (model.specVersion ∈ db.metadatas.keys ∧ model.blockNum < 2147483647 ∧
        inPartition model.blockNum = true) ∧
      db'.metadatas = db.metadatas ∧ db'.blocks = db.blocks.upsert model := by
  unfold insertBlock
  split
  · rename_i hchecks
    rw [Option.some.injEq, Database.ext_iff]
    simp [hchecks, eq_comm]
  · rename_i hchecks
    simp [hchecks]

theorem stores_insertMetadata {model : MetadataModel} (h : db.insertMetadata model = some db')
    (n : BlockNumber) : db'.Stores n ↔ db.Stores n := by
  rw [Stores, Stores, (insertMetadata_eq_some.mp h).2.2]

theorem stores_insertBlock {model : BlockModel} (h : db.insertBlock model = some db')
    (n : BlockNumber) : db'.Stores n ↔ n = model.blockNum ∨ db.Stores n := by
  rw [Stores, Stores, (insertBlock_eq_some.mp h).2.2, KeyedTable.mem_keys_upsert]

theorem maxBlockNum_eq_some {n : BlockNumber} (h : db.maxBlockNum = some n) :
    db.Stores n ∧ ∀ m, db.Stores m → m ≤ n :=
  List.max?_eq_some_iff.mp h

end Database

end SubArchive
