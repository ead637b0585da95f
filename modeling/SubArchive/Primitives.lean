import Mathlib.Data.Nat.Notation

/-!
# Blocks and errors

The block types the archive is built over, as `primitives` fixes them: block
numbers are `u32`, hashes are byte strings and extrinsics are opaque.  Hashing
and encoding are not in this repository; they are collected in `Codec`.
-/

namespace SubArchive

abbrev Bytes := List UInt8
abbrev Hash := Bytes
abbrev BlockNumber := ℕ
abbrev ConsensusEngineId := Bytes

inductive DigestItem where
  | changesTrieRoot (root : Hash)
  | preRuntime (engine : ConsensusEngineId) (data : Bytes)
  | consensus (engine : ConsensusEngineId) (data : Bytes)
  | seal (engine : ConsensusEngineId) (data : Bytes)
  | changesTrieSignal (data : Bytes)
  | other (data : Bytes)
deriving DecidableEq, Repr

structure Header where
  parentHash : Hash
  number : BlockNumber
  stateRoot : Hash
  extrinsicsRoot : Hash
  digest : List DigestItem
deriving DecidableEq, Repr

/-- `header.digest_mut().pop()` -/
def Header.digestPop (header : Header) : Header :=
  { header with digest := header.digest.dropLast }

/-- `header.digest_mut().push(item)` -/
def Header.digestPush (header : Header) (item : DigestItem) : Header :=
  { header with digest := header.digest ++ [item] }

@[simp] theorem Header.digestPush_parentHash (header : Header) (item : DigestItem) :
    (header.digestPush item).parentHash = header.parentHash := rfl

@[simp] theorem Header.digestPop_digestPush (header : Header) (item : DigestItem) :
    (header.digestPush item).digestPop = header := by
  simp [digestPop, digestPush]

@[ext] structure Block where
  header : Header
  extrinsics : List Bytes
deriving DecidableEq, Repr

structure Justification where
  engine : ConsensusEngineId
  data : Bytes
deriving DecidableEq, Repr

abbrev Justifications := List Justification

@[ext] structure SignedBlock where
  block : Block
  justifications : Option Justifications
deriving DecidableEq, Repr

inductive BlockId where
  | hash (hash : Hash)
  | number (number : BlockNumber)
deriving DecidableEq, Repr

/-- The errors of `sp_blockchain` and `sp_api` that the modelled code builds
or passes on. -/
inductive Error where
  | unknownBlock (message : String)
  | backend (message : String)
  | storage (message : String)
  | runtimeCode (message : String)
  | versionInvalid (message : String)
  | execution (message : String)
  | runtimeApiError (error : Error)
  | application (error : Error)
  | failedToDecodeReturnValue (function : String)
  | invalidStateRoot
  | notInFinalizedChain
  | incompletePipeline
  | other (message : String)
deriving DecidableEq, Repr

abbrev Panic := String

abbrev IoError := String

/-- Hashing and SCALE encoding, as `sp_core` and `parity-scale-codec` provide
them. -/
structure Codec where
  hashHeader : Header → Hash
  encodeHeader : Header → Bytes
  encodeBlock : Block → Bytes
  encodeDigest : List DigestItem → Bytes
  encodeExtrinsic : Bytes → Bytes
  encodeJustification : Justification → Bytes
  decodeBytes : Bytes → Option Bytes

structure RuntimeVersion where
  specName : Bytes
  implName : Bytes
  authoringVersion : ℕ
  specVersion : ℕ
  implVersion : ℕ
  apis : List (Bytes × ℕ)
  transactionVersion : ℕ
deriving DecidableEq, Repr

def RuntimeVersion.hasApiWith (version : RuntimeVersion) (id : Bytes) (predicate : ℕ → Bool) :
    Bool :=
  version.apis.any fun entry ↦ entry.1 = id && predicate entry.2

/-- The id of the `Core` API, `blake2_64(b"Core")`. -/
def coreApiId : Bytes := [223, 106, 203, 104, 153, 7, 96, 155]

end SubArchive
