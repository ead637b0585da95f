import Mathlib.Data.Set.Basic
import SubArchive.BlockExecutor

/-!
# Canonical chains

A `Branch` is a chain of blocks from the genesis block on, each with the state
it leaves.  A backend presents a branch when whatever it answers about a height
comes from the block of the branch at that height.
-/

namespace SubArchive

structure ChainBlock where
  signed : SignedBlock
  state : StateBackend

namespace ChainBlock

def header (block : ChainBlock) : Header := block.signed.block.header

def hash (codec : Codec) (block : ChainBlock) : Hash := codec.hashHeader block.header

end ChainBlock

structure Branch (codec : Codec) where
  blocks : List ChainBlock
  numbered : ∀ (n : ℕ) (block : ChainBlock), blocks[n]? = some block → block.header.number = n
  linked : ∀ (n : ℕ) (block child : ChainBlock), blocks[n]? = some block →
    blocks[n + 1]? = some child → child.header.parentHash = block.hash codec

/-- The parent hash of a genesis block. -/
def defaultHash : Hash := List.replicate 32 0

def emptyState : StateBackend := ⟨fun _ ↦ .ok none, fun _ ↦ .ok []⟩

namespace Branch

variable {codec : Codec}

def at? (branch : Branch codec) (n : BlockNumber) : Option ChainBlock := branch.blocks[n]?

def hashAt (branch : Branch codec) (n : BlockNumber) : Option Hash :=
  (branch.at? n).map (ChainBlock.hash codec)

/-- The one block with a hash, when no two blocks of the branch share one. -/
def ofHash? (branch : Branch codec) (hash : Hash) : Option ChainBlock :=
  branch.blocks.find? fun block ↦ block.hash codec = hash

theorem hashAt_eq_some {branch : Branch codec} {n : BlockNumber} {hash : Hash} :
    branch.hashAt n = some hash ↔ ∃ block, branch.at? n = some block ∧ block.hash codec = hash :=
  Option.map_eq_some_iff

theorem at?_of_mem {branch : Branch codec} {block : ChainBlock} (h : block ∈ branch.blocks) :
    branch.at? block.header.number = some block := by
  obtain ⟨n, hn⟩ := List.mem_iff_getElem?.mp h
  have hnumber := branch.numbered n block hn
  rw [hnumber]
  exact hn

theorem parentHash_eq {branch : Branch codec} {n : BlockNumber} {child : ChainBlock}
    (h : branch.at? (n + 1) = some child) : branch.hashAt n = some child.header.parentHash := by
  have hlt : n + 1 < branch.blocks.length := (List.getElem?_eq_some_iff.mp h).1
  obtain ⟨block, hblock⟩ : ∃ block, branch.blocks[n]? = some block :=
    ⟨_, List.getElem?_eq_getElem (Nat.lt_of_succ_lt hlt)⟩
  rw [hashAt_eq_some]
  exact ⟨block, hblock, (branch.linked n block child hblock h).symm⟩

theorem ofHash?_eq {branch : Branch codec} (hdistinct : (branch.blocks.map (·.hash codec)).Nodup)
    {n : BlockNumber} {block : ChainBlock} (h : branch.at? n = some block) :
    branch.ofHash? (block.hash codec) = some block := by
  have hmem : block ∈ branch.blocks := List.mem_of_getElem? h
  rcases hfind : branch.ofHash? (block.hash codec) with _ | found
  · simpa using List.find?_eq_none.mp hfind block hmem
  · have hhash : found.hash codec = block.hash codec := by simpa using List.find?_some hfind
    rw [List.inj_on_of_nodup_map hdistinct (List.mem_of_find?_eq_some hfind) hmem hhash]

/-! ## The backend of a branch -/

def lookup? (branch : Branch codec) : BlockId → Option ChainBlock
  | .hash hash => branch.ofHash? hash
  | .number number => branch.at? number

/-- A backend in memory that holds the branch and nothing else. -/
def backend (branch : Branch codec) (finalizedNumber : BlockNumber) : Backend where
  blockchain := {
    header := fun id ↦ .ok ((branch.lookup? id).map (·.header))
    body := fun id ↦ .ok ((branch.lookup? id).map (·.signed.block.extrinsics))
    justifications := fun id ↦ .ok ((branch.lookup? id).bind (·.signed.justifications))
    number := fun hash ↦ .ok ((branch.ofHash? hash).map (·.header.number))
    hash := fun number ↦ .ok (branch.hashAt number)
    info := {
      bestHash := (branch.hashAt (branch.blocks.length - 1)).getD []
      bestNumber := branch.blocks.length - 1
      finalizedHash := (branch.hashAt finalizedNumber).getD []
      finalizedNumber } }
  stateAt id :=
    if id = .hash defaultHash then .ok emptyState
    else
      match branch.lookup? id with
      | some block => .ok block.state
      | none => .error (.unknownBlock "no state for the block")
  haveStateAt hash _ := (branch.ofHash? hash).isSome
  changesTriesStateAtBlock _ := .ok ()

def world (branch : Branch codec) (finalizedNumber : BlockNumber) : World :=
  ⟨branch.backend finalizedNumber, branch.backend finalizedNumber⟩

variable {branch : Branch codec} {n finalizedNumber : BlockNumber} {block : ChainBlock}

theorem backend_stateAt_default :
    (branch.backend finalizedNumber).stateAt (.hash defaultHash) = .ok emptyState := by
  simp [backend]

theorem backend_stateAt_number (h : branch.at? n = some block) :
    (branch.backend finalizedNumber).stateAt (.number n) = .ok block.state := by
  simp [backend, lookup?, h]

theorem backend_stateAt_number_none (h : branch.at? n = none) (state : StateBackend) :
    (branch.backend finalizedNumber).stateAt (.number n) ≠ .ok state := by
  simp [backend, lookup?, h]

/-- No two blocks of the branch share a hash, and none has the default hash. -/
def Distinct (branch : Branch codec) : Prop :=
  (defaultHash :: branch.blocks.map (·.hash codec)).Nodup

theorem backend_stateAt_hash (hdistinct : branch.Distinct) (h : branch.at? n = some block) :
    (branch.backend finalizedNumber).stateAt (.hash (block.hash codec)) = .ok block.state := by
  obtain ⟨hdefault, hdistinct⟩ := List.nodup_cons.mp hdistinct
  have hne : block.hash codec ≠ defaultHash := fun heq ↦
    hdefault (List.mem_map.mpr ⟨block, List.mem_of_getElem? h, heq⟩)
  simp [backend, lookup?, ofHash?_eq hdistinct h, hne]

theorem backend_getBlock (h : branch.at? n = some block) :
    (LocalBackendCore.mk (branch.backend finalizedNumber)).getBlock n =
      .ok (some block.signed) := by
  rw [LocalBackendCore.getBlock_eq_some]
  simp [backend, lookup?, h, ChainBlock.header]

theorem at?_of_getBlock {signed : SignedBlock}
    (h : (LocalBackendCore.mk (branch.backend finalizedNumber)).getBlock n = .ok (some signed)) :
    ∃ block, branch.at? n = some block ∧ block.signed = signed := by
  rcases hblock : branch.at? n with _ | block
  · have hheader := (LocalBackendCore.getBlock_eq_some.mp h).1
    simp [backend, lookup?, hblock] at hheader
  · rw [backend_getBlock hblock] at h
    exact ⟨block, rfl, by simpa using h⟩

end Branch

/-- What the backend answers about a height is about the block of the branch
there. -/
structure Backend.Presents {codec : Codec} (backend : Backend) (branch : Branch codec) :
    Prop where
  block : ∀ n signed, (LocalBackendCore.mk backend).getBlock n = .ok (some signed) →
    ∃ block, branch.at? n = some block ∧ block.signed = signed
  stateByNumber : ∀ n state, backend.stateAt (.number n) = .ok state →
    ∃ block, branch.at? n = some block ∧ block.state = state
  stateByHash : ∀ n block state, branch.at? n = some block →
    backend.stateAt (.hash (block.hash codec)) = .ok state → block.state = state

theorem Branch.backend_presents {codec : Codec} {branch : Branch codec}
    (hdistinct : branch.Distinct) (finalizedNumber : BlockNumber) :
    (branch.backend finalizedNumber).Presents branch where
  block _ _ h := at?_of_getBlock h
  stateByNumber n state h := by
    rcases hblock : branch.at? n with _ | block
    · exact absurd h (backend_stateAt_number_none hblock state)
    · rw [backend_stateAt_number hblock] at h
      exact ⟨block, rfl, by simpa using h⟩
  stateByHash n block state hblock h := by
    rw [backend_stateAt_hash hdistinct hblock] at h
    simpa using h

/-- Both backends are about the branch. -/
structure World.Presents {codec : Codec} (w : World) (branch : Branch codec) : Prop where
  main : w.main.Presents branch
  readonly : w.readonly.Presents branch

/-- All blocks of all branches: they are told apart by their hashes, and each
leaves a state with a runtime code. -/
structure BlockTree (codec : Codec) where
  blocks : Set ChainBlock
  distinct : ∀ b ∈ blocks, ∀ b' ∈ blocks, b.hash codec = b'.hash codec → b = b'
  coded : ∀ b ∈ blocks, ∃ code, b.state.storage codeKey = .ok (some code)

def BlockTree.codes {codec : Codec} (tree : BlockTree codec) : Set Bytes :=
  {code | ∃ b ∈ tree.blocks, b.state.storage codeKey = .ok (some code)}

structure Backend.PresentsFrom {codec : Codec} (backend : Backend) (tree : BlockTree codec)
    (branch : Branch codec) : Prop where
  presents : backend.Presents branch
  mem : ∀ n block, branch.at? n = some block → block ∈ tree.blocks

def BlockTree.ofBranch {codec : Codec} (branch : Branch codec) (hdistinct : branch.Distinct)
    (hcoded : ∀ b ∈ branch.blocks, ∃ code, b.state.storage codeKey = .ok (some code)) :
    BlockTree codec where
  blocks := {b | b ∈ branch.blocks}
  distinct _ hb _ hb' heq := List.inj_on_of_nodup_map (List.nodup_cons.mp hdistinct).2 hb hb' heq
  coded := hcoded

/-! ## A small chain

A node whose blocks set one key and the code, with chains given by the two
values each block sets. -/

namespace Sample

def codec : Codec where
  hashHeader header := UInt8.ofNat header.number :: header.stateRoot
  encodeHeader header := header.stateRoot
  encodeBlock block := block.extrinsics.flatten
  encodeDigest digest := [UInt8.ofNat digest.length]
  encodeExtrinsic := id
  encodeJustification justification := justification.data
  decodeBytes := some

def diff (state : StateBackend) (entries : List (Bytes × Bytes)) : List (Bytes × Option Bytes) :=
  (entries.filter fun (key, value) ↦
    match state.storage key with
    | .ok (some value') => value ≠ value'
    | _ => true).map fun (key, value) ↦ (key, some value)

def engine : CodeExecutor where
  call code state method callData pending :=
    if method = "Core_execute_block" then
      match callData with
      | [value, version] =>
          (.ok [], ⟨diff state [([1], [value]), (codeKey, [version])], []⟩, some [value])
      | _ => (.error (.execution "unreachable"), pending)
    else if method = "Metadata_metadata" then (.ok code, pending)
    else (.ok [], pending)
  runtimeVersion code := .ok ⟨[], [], 0, (code.headD 0).toNat, 0, [], 1⟩

def reader : VersionReader where
  runtimeVersion := some
  decodeOld code := some ⟨[], [], 0, (code.headD 0).toNat, 0, []⟩
  decodeNew _ := none
  makeHash code := ((code.getD []).headD 0).toNat

def state (value version : UInt8) : StateBackend where
  storage key :=
    if key = [1] then .ok (some [value])
    else if key = codeKey then .ok (some [version])
    else .ok none
  storageRoot _ := .ok [value]

def node : Node where
  codec := codec
  engine := engine
  reader := reader
  genesisStorage := ⟨[([1], [0]), (codeKey, [1])], []⟩
  wasmOverride := none

def block (number : BlockNumber) (parentHash : Hash) (value version : UInt8) : ChainBlock where
  signed := {
    block := {
      header := ⟨parentHash, number, [value], [], if number = 0 then [] else [.seal [] []]⟩
      extrinsics := if number = 0 then [] else [[value], [version]] }
    justifications := none }
  state := state value version

/-- Blocks on top of a block, or the whole chain on top of the default hash. -/
def blocks (number : BlockNumber) (parentHash : Hash) : List (UInt8 × UInt8) → List ChainBlock
  | [] => []
  | (value, version) :: rest =>
      let first := block number parentHash value version
      first :: blocks (number + 1) (first.hash codec) rest

theorem number_of_mem_blocks {number : BlockNumber} {parentHash : Hash}
    {entries : List (UInt8 × UInt8)} {n : ℕ} {b : ChainBlock}
    (h : (blocks number parentHash entries)[n]? = some b) : b.header.number = number + n := by
  induction entries generalizing number parentHash n with
  | nil => simp [blocks] at h
  | cons entry rest ih =>
      cases n with
      | zero =>
          obtain rfl : block number parentHash entry.1 entry.2 = b := by simpa [blocks] using h
          rfl
      | succ n =>
          rw [ih (by simpa [blocks] using h)]
          exact Nat.succ_add_eq_add_succ number n

theorem linked_blocks {number : BlockNumber} {parentHash : Hash}
    {entries : List (UInt8 × UInt8)} {n : ℕ} {b child : ChainBlock}
    (h : (blocks number parentHash entries)[n]? = some b)
    (hchild : (blocks number parentHash entries)[n + 1]? = some child) :
    child.header.parentHash = b.hash codec := by
  induction entries generalizing number parentHash n with
  | nil => simp [blocks] at h
  | cons entry rest ih =>
      cases n with
      | zero =>
          obtain rfl : block number parentHash entry.1 entry.2 = b := by simpa [blocks] using h
          cases rest with
          | nil => simp [blocks] at hchild
          | cons next rest =>
              obtain rfl := by simpa [blocks] using hchild
              rfl
      | succ n => exact ih (by simpa [blocks] using h) (by simpa [blocks] using hchild)

def branch (entries : List (UInt8 × UInt8)) : Branch codec where
  blocks := blocks 0 defaultHash ((0, 1) :: entries)
  numbered n b h := by simpa using number_of_mem_blocks h
  linked n b child h hchild := linked_blocks h hchild

theorem code_of_mem_blocks {number : BlockNumber} {parentHash : Hash}
    {entries : List (UInt8 × UInt8)} {b : ChainBlock} (h : b ∈ blocks number parentHash entries) :
    ∃ version ∈ entries.map Prod.snd, b.state.storage codeKey = .ok (some [version]) := by
  induction entries generalizing number parentHash with
  | nil => simp [blocks] at h
  | cons entry rest ih =>
      rw [blocks, List.mem_cons] at h
      rcases h with rfl | h
      · exact ⟨entry.2, by simp, rfl⟩
      · obtain ⟨version, hversion, hcode⟩ := ih h
        exact ⟨version, List.mem_cons_of_mem _ hversion, hcode⟩

def world (entries : List (UInt8 × UInt8)) : World := (branch entries).world 0

end Sample

end SubArchive
