import SubArchive.Library.Results
import SubArchive.Primitives

/-!
# Backends and the archive core

`sc_client_api::Backend` is an interface, modelled as the record of its
answers at one moment.  `LocalBackendCore` is the only implementation of
`ArchiveCore`: the readonly strategy differs in the backend it is given.
-/

namespace SubArchive

/-- Changes of a state: top-level keys and, per child trie, its keys.  `none`
deletes. -/
structure Changes where
  main : List (Bytes × Option Bytes)
  child : List (Bytes × List (Bytes × Option Bytes))
deriving DecidableEq, Repr

def Changes.empty : Changes := ⟨[], []⟩

structure Storage where
  top : List (Bytes × Bytes)
  childrenDefault : List (Bytes × List (Bytes × Bytes))
deriving DecidableEq, Repr

/-- `well_known_keys::CODE` -/
def codeKey : Bytes := [58, 99, 111, 100, 101]

/-- The state of one block: its top-level storage and the root it has after
some changes. -/
structure StateBackend where
  storage : Bytes → Except String (Option Bytes)
  storageRoot : Changes → Except String Hash

structure Info where
  bestHash : Hash
  bestNumber : BlockNumber
  finalizedHash : Hash
  finalizedNumber : BlockNumber
deriving DecidableEq, Repr

structure Blockchain where
  header : BlockId → Except Error (Option Header)
  body : BlockId → Except Error (Option (List Bytes))
  justifications : BlockId → Except Error (Option Justifications)
  number : Hash → Except Error (Option BlockNumber)
  hash : BlockNumber → Except Error (Option Hash)
  info : Info

structure Backend where
  blockchain : Blockchain
  stateAt : BlockId → Except Error StateBackend
  haveStateAt : Hash → BlockNumber → Bool
  changesTriesStateAtBlock : BlockId → Except Error Unit

/-- `expect_block_hash_from_id` -/
def Blockchain.expectBlockHashFromId (chain : Blockchain) : BlockId → Except Error Hash
  | .hash hash => .ok hash
  | .number number => do
      match ← chain.hash number with
      | some hash => .ok hash
      | none => .error (.unknownBlock s!"Expect block hash from id: {number}")

/-- `expect_block_number_from_id` -/
def Blockchain.expectBlockNumberFromId (chain : Blockchain) : BlockId → Except Error BlockNumber
  | .number number => .ok number
  | .hash hash => do
      match ← chain.number hash with
      | some number => .ok number
      | none => .error (.unknownBlock s!"Expect block number from id: {hash}")

/-- `Result::unwrap`, which panics on an error. -/
def unwrap {α : Type} : Except Error α → Except Panic α
  | .ok value => .ok value
  | .error error => .error s!"called Result::unwrap() on an Err value: {repr error}"

@[simp] theorem unwrap_eq_ok {α : Type} {r : Except Error α} {a : α} :
    unwrap r = .ok a ↔ r = .ok a := by
  cases r <;> simp [unwrap]

structure LocalBackendCore where
  backend : Backend

/-- Header, body and justifications are three reads by number; a block without
header or body is no block. -/
def LocalBackendCore.getBlock (core : LocalBackendCore) (blockNumber : BlockNumber) :
    Except Panic (Option SignedBlock) := do
  let blockNum := BlockId.number blockNumber
  let header ← unwrap (core.backend.blockchain.header blockNum)
  let body ← unwrap (core.backend.blockchain.body blockNum)
  let justifications ← unwrap (core.backend.blockchain.justifications blockNum)
  match header, body with
  | some header, some body => return some ⟨⟨header, body⟩, justifications⟩
  | _, _ => return none

def LocalBackendCore.getState (core : LocalBackendCore) (block : BlockId) :
    Except Error StateBackend :=
  core.backend.stateAt block

theorem LocalBackendCore.getBlock_eq_some {core : LocalBackendCore} {n : BlockNumber}
    {signed : SignedBlock} :
    core.getBlock n = .ok (some signed) ↔
      core.backend.blockchain.header (.number n) = .ok (some signed.block.header) ∧
      core.backend.blockchain.body (.number n) = .ok (some signed.block.extrinsics) ∧
      core.backend.blockchain.justifications (.number n) = .ok signed.justifications := by
  rcases hh : core.backend.blockchain.header (.number n) with e | header
  · simp [getBlock, hh, unwrap]
  rcases hb : core.backend.blockchain.body (.number n) with e | body
  · simp [getBlock, hh, hb, unwrap]
  rcases hj : core.backend.blockchain.justifications (.number n) with e | justifications
  · simp [getBlock, hh, hb, hj, unwrap]
  cases header <;> cases body <;>
    simp [getBlock, hh, hb, hj, unwrap, SignedBlock.ext_iff, Block.ext_iff, and_assoc]

end SubArchive
