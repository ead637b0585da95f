import Mathlib.Data.List.Induction
import SubArchive.ChangesTries
import SubArchive.ImportOperation
import SubArchive.Library.Asking

/-!
# Proofs of key changes

`Client::key_changes_proof_with_cht_size` answers a requester who knows the
roots of changes tries from block `min` on.  It goes through the configurations
as `key_changes` does, on a storage that notes the older roots that are read,
and proves these roots by canonical hash tries.
-/

namespace SubArchive

open Results

abbrev StorageProof := List Bytes

/-- The calls of `ChangesTrieStorage`. -/
inductive StorageCall where
  | buildAnchor (hash : Hash)
  | root (anchor : BlockNumber × Hash) (block : BlockNumber)
  | withCachedChangedKeys (root : Hash)
  | get (key : Hash) (nodePrefix : Bytes × Option UInt8)
deriving DecidableEq, Repr

abbrev StorageCall.Reply : StorageCall → Type
  | buildAnchor _ => Except String (BlockNumber × Hash)
  | root _ _ => Except String (Option Hash)
  | withCachedChangedKeys _ => Option (List (Option Bytes × List Bytes))
  | get _ _ => Except String (Option Bytes)

/-- The storage, and what proofs are made with: `sp_state_machine` and the
module `cht` of `sc_client_api`. -/
structure ChangesTrieProver where
  reply : (call : StorageCall) → call.Reply
  /-- `sp_state_machine::key_changes_proof`, with the greatest number -/
  keyChangesProof : KeyChangesQuery → BlockNumber → Option Bytes → Bytes →
    Asking StorageCall StorageCall.Reply (Except String (List Bytes))
  /-- the groups `cht::for_each_cht_group` hands on, until one fails -/
  forEachChtGroup : BlockNumber → List BlockNumber →
    List (Except Error (BlockNumber × List BlockNumber))
  startNumber : BlockNumber → BlockNumber → BlockNumber
  buildProof : BlockNumber → BlockNumber → List BlockNumber →
    (ℕ → Except Error (Option Hash)) → Except Error StorageProof
  merge : List StorageProof → StorageProof

structure AccessedRootsRecorder where
  min : BlockNumber
  requiredRootsProofs : Std.TreeMap BlockNumber Hash

/-- What a call leaves in the recorder; `root` alone is noted, when it has
found a root. -/
def AccessedRootsRecorder.record (recorder : AccessedRootsRecorder) :
    (call : StorageCall) → call.Reply → AccessedRootsRecorder
  | .root _ block, .ok (some root) =>
      if block < recorder.min then
        { recorder with
          requiredRootsProofs := recorder.requiredRootsProofs.insert block root }
      else recorder
  | _, _ => recorder

structure ChangesProof where
  maxBlock : BlockNumber
  proof : List Bytes
  roots : Std.TreeMap BlockNumber Hash
  rootsProof : StorageProof

def DigestItem.asChangesTrieRoot : DigestItem → Option Hash
  | .changesTrieRoot root => some root
  | _ => none

/-- `digest().log(DigestItem::as_changes_trie_root)` -/
def Header.changesTrieRoot (header : Header) : Option Hash :=
  header.digest.findSome? DigestItem.asChangesTrieRoot

/-- The query for a configuration, which is for the whole range. -/
def CollectedConfig.wholeQuery (range : CollectedConfig) (first : BlockNumber)
    (last : BlockNumber × Hash) : KeyChangesQuery where
  config := range.config
  zero := range.zero
  endNumber := range.endBlock.map Prod.fst
  first := first
  anchor := last

namespace ChangesTrieBackend

/-- The roots of a canonical hash trie from its first block on. -/
def chtRoots (backend : ChangesTrieBackend) (chtStart : BlockNumber) (i : ℕ) :
    Except Error (Option Hash) :=
  (backend.blockchain.header (.number (chtStart + i))).map fun block ↦
    block.bind Header.changesTrieRoot

def changesTrieRootsProofAtCht (backend : ChangesTrieBackend) (prover : ChangesTrieProver)
    (chtSize chtNum : BlockNumber) (blocks : List BlockNumber) : Except Error StorageProof :=
  prover.buildProof chtSize chtNum blocks (backend.chtRoots (prover.startNumber chtSize chtNum))

def changesTrieRootsProof (backend : ChangesTrieBackend) (prover : ChangesTrieProver)
    (chtSize : BlockNumber) (blocks : List BlockNumber) : Except Error StorageProof := do
  let proofs ← (prover.forEachChtGroup chtSize blocks).mapM fun group ↦ do
    let (chtNum, chtBlocks) ← group
    backend.changesTrieRootsProofAtCht prover chtSize chtNum chtBlocks
  return prover.merge proofs

/-- One round of the loop over the configurations. -/
def proveRange (backend : ChangesTrieBackend) (prover : ChangesTrieProver)
    (firstNumber : BlockNumber) (last : Hash) (maxNumber : BlockNumber)
    (storageKey : Option Bytes) (key : Bytes) (state : List Bytes × AccessedRootsRecorder)
    (range : CollectedConfig) :
    Except ChangesTrieError (List Bytes × AccessedRootsRecorder) := do
  let lastNumber ← (backend.blockchain.expectBlockNumberFromId (.hash last)).mapError .chain
  let query := range.wholeQuery firstNumber (lastNumber, last)
  let (proofRange, recorder) :=
    (prover.keyChangesProof query maxNumber storageKey key).observed prover.reply
      AccessedRootsRecorder.record state.2
  let proofRange ← proofRange.mapError .changesTrieAccessFailed
  return (state.1 ++ proofRange, recorder)

/-- What is done with the configurations. -/
def proveConfigs (backend : ChangesTrieBackend) (prover : ChangesTrieProver)
    (firstNumber : BlockNumber) (last min max : Hash) (storageKey : Option Bytes) (key : Bytes)
    (chtSize : BlockNumber) (configs : List CollectedConfig) :
    Except ChangesTrieError ChangesProof := do
  let minNumber ← (backend.blockchain.expectBlockNumberFromId (.hash min)).mapError .chain
  let maxNumber ← (backend.blockchain.expectBlockNumberFromId (.hash max)).mapError .chain
  let maxNumber := Nat.min backend.blockchain.info.bestNumber maxNumber
  let (proof, recorder) ← configs.foldlM
    (backend.proveRange prover firstNumber last maxNumber storageKey key) ([], ⟨minNumber, ∅⟩)
  let roots := recorder.requiredRootsProofs
  let rootsProof ← (backend.changesTrieRootsProof prover chtSize roots.keys).mapError .chain
  return ⟨maxNumber, proof, roots, rootsProof⟩

def keyChangesProofWithChtSize (backend : ChangesTrieBackend) (prover : ChangesTrieProver)
    (fuel : ℕ) (first last min max : Hash) (storageKey : Option Bytes) (key : Bytes)
    (chtSize : BlockNumber) : Option (Except ChangesTrieError ChangesProof) :=
  match backend.blockchain.expectBlockNumberFromId (.hash first) with
  | .error error => some (.error (.chain error))
  | .ok firstNumber =>
      (backend.requireChangesTrie fuel firstNumber last true).map fun required ↦ do
        let (_, configs) ← required
        backend.proveConfigs prover firstNumber last min max storageKey key chtSize configs

end ChangesTrieBackend

/-! ## The roots that are noted -/

/-- What is called for roots below `bound` replies with those of `rootAt`. -/
def RootsFrom (reply : (call : StorageCall) → call.Reply) (bound : BlockNumber)
    (rootAt : BlockNumber → Option Hash) (calls : List StorageCall) : Prop :=
  ∀ anchor n, .root anchor n ∈ calls → n < bound → reply (.root anchor n) = .ok (rootAt n)

namespace AccessedRootsRecorder

variable {recorder : AccessedRootsRecorder} {reply : (call : StorageCall) → call.Reply}
  {rootAt : BlockNumber → Option Hash} {block : BlockNumber} {root : Hash}

theorem record_min (recorder : AccessedRootsRecorder) (call : StorageCall)
    (reply : call.Reply) : (recorder.record call reply).min = recorder.min := by
  unfold record
  split
  · split <;> rfl
  · rfl

/-- The root a call for one has found below `min` is noted, and nothing else. -/
theorem getElem?_record (block : BlockNumber) (root : Hash) {call : StorageCall}
    (hroots : RootsFrom reply recorder.min rootAt [call])
    (hnoted : ∀ root, recorder.requiredRootsProofs[block]? = some root → rootAt block = some root) :
    (recorder.record call (reply call)).requiredRootsProofs[block]? = some root ↔
      recorder.requiredRootsProofs[block]? = some root ∨
        block < recorder.min ∧ rootAt block = some root ∧ ∃ anchor, call = .root anchor block := by
  rcases call with hash | ⟨anchor, n⟩ | hash | ⟨hash, nodePrefix⟩
  · simp [record]
  · by_cases hn : n < recorder.min
    · rw [hroots anchor n List.mem_cons_self hn]
      rcases hfound : rootAt n with _ | found
      · simp only [record, StorageCall.root.injEq]
        constructor
        · exact Or.inl
        · rintro (hold | ⟨-, hroot, -, -, rfl⟩)
          · exact hold
          · rw [hfound] at hroot
            cases hroot
      · simp only [record, if_pos hn, StorageCall.root.injEq, Std.TreeMap.getElem?_insert,
          Nat.compare_eq_eq]
        by_cases heq : n = block
        · subst heq
          simp only [if_pos, hn, true_and, exists_eq', and_true, hfound]
          constructor
          · exact Or.inr
          · rintro (hold | hroot)
            · rw [← hfound]
              exact hnoted root hold
            · exact hroot
        · simp [heq]
    · have hsame : recorder.record (.root anchor n) (reply (.root anchor n)) = recorder := by
        unfold record
        split
        · rename_i heq hreply
          cases heq
          exact if_neg hn
        · rfl
      rw [hsame]
      constructor
      · exact Or.inl
      · rintro (hold | ⟨hlt, -, anchor', heq⟩)
        · exact hold
        · cases heq
          exact absurd hlt hn
  · simp [record]
  · simp [record]

/-- The recorder after some calls. -/
def recordAll (reply : (call : StorageCall) → call.Reply) (recorder : AccessedRootsRecorder)
    (calls : List StorageCall) : AccessedRootsRecorder :=
  calls.foldl (fun recorder call ↦ recorder.record call (reply call)) recorder

theorem recordAll_append (recorder : AccessedRootsRecorder) (calls more : List StorageCall) :
    recorder.recordAll reply (calls ++ more) =
      (recorder.recordAll reply calls).recordAll reply more :=
  List.foldl_append

theorem recordAll_min (recorder : AccessedRootsRecorder) (calls : List StorageCall) :
    (recorder.recordAll reply calls).min = recorder.min := by
  induction calls generalizing recorder with
  | nil => rfl
  | cons call calls ih => exact (ih _).trans (record_min recorder call (reply call))

/-- The roots that were found below `bound`, with their blocks. -/
theorem getElem?_recordAll {bound : BlockNumber} {calls : List StorageCall}
    (hroots : RootsFrom reply bound rootAt calls) :
    (recordAll reply ⟨bound, ∅⟩ calls).requiredRootsProofs[block]? = some root ↔
      block < bound ∧ rootAt block = some root ∧ ∃ anchor, .root anchor block ∈ calls := by
  induction calls using List.reverseRecOn generalizing root with
  | nil => simp [recordAll]
  | append_singleton calls call ih =>
      have hbefore : RootsFrom reply bound rootAt calls := by
        intro anchor n hmem
        exact hroots anchor n (List.mem_append_left [call] hmem)
      have hlast : RootsFrom reply (recordAll reply ⟨bound, ∅⟩ calls).min rootAt [call] := by
        rw [recordAll_min]
        intro anchor n hmem
        exact hroots anchor n (List.mem_append_right calls hmem)
      have hnoted : ∀ root, (recordAll reply ⟨bound, ∅⟩ calls).requiredRootsProofs[block]? =
          some root → rootAt block = some root := by
        intro root hold
        exact ((ih hbefore).mp hold).2.1
      have hstep := getElem?_record block root hlast hnoted
      rw [recordAll_min, ih hbefore] at hstep
      rw [recordAll_append]
      refine hstep.trans ?_
      constructor
      · rintro (⟨hlt, hroot, anchor, hmem⟩ | ⟨hlt, hroot, anchor, rfl⟩)
        · exact ⟨hlt, hroot, anchor, List.mem_append_left [call] hmem⟩
        · exact ⟨hlt, hroot, anchor, List.mem_append_right calls List.mem_cons_self⟩
      · rintro ⟨hlt, hroot, anchor, hmem⟩
        rcases List.mem_append.mp hmem with hmem | hmem
        · exact Or.inl ⟨hlt, hroot, anchor, hmem⟩
        · exact Or.inr ⟨hlt, hroot, anchor, (List.mem_singleton.mp hmem).symm⟩

end AccessedRootsRecorder

/-! ## The answer -/

namespace ChangesTrieProver

/-- The nodes that prove a query. -/
def prove (prover : ChangesTrieProver) (maxNumber : BlockNumber) (storageKey : Option Bytes)
    (key : Bytes) (query : KeyChangesQuery) : Except ChangesTrieError (List Bytes) :=
  ((prover.keyChangesProof query maxNumber storageKey key).run prover.reply).mapError
    .changesTrieAccessFailed

/-- The calls the proof of a query makes. -/
def calls (prover : ChangesTrieProver) (maxNumber : BlockNumber) (storageKey : Option Bytes)
    (key : Bytes) (query : KeyChangesQuery) : List StorageCall :=
  (prover.keyChangesProof query maxNumber storageKey key).asked prover.reply

/-- Of ascending blocks, the groups are parts that follow each other, each of
the blocks of one trie. -/
structure GroupsByCht (prover : ChangesTrieProver) (chtSize : BlockNumber) : Prop where
  flatten : ∀ blocks (groups : List (BlockNumber × List BlockNumber)), blocks.Pairwise (· < ·) →
    prover.forEachChtGroup chtSize blocks = groups.map .ok → (groups.map Prod.snd).flatten = blocks
  start_le : ∀ blocks (groups : List (BlockNumber × List BlockNumber)), blocks.Pairwise (· < ·) →
    prover.forEachChtGroup chtSize blocks = groups.map .ok →
      ∀ group ∈ groups, ∀ block ∈ group.2, prover.startNumber chtSize group.1 ≤ block

end ChangesTrieProver

namespace ChangesTrieBackend

variable {backend : ChangesTrieBackend} {prover : ChangesTrieProver} {fuel : ℕ}
  {first last min max : Hash} {storageKey : Option Bytes} {key : Bytes}
  {firstNumber lastNumber minNumber maxNumber chtSize : BlockNumber}

theorem proveRange_eq
    (hlast : backend.blockchain.expectBlockNumberFromId (.hash last) = .ok lastNumber)
    (state : List Bytes × AccessedRootsRecorder) (range : CollectedConfig) :
    backend.proveRange prover firstNumber last maxNumber storageKey key state range =
      (prover.prove maxNumber storageKey key
        (range.wholeQuery firstNumber (lastNumber, last))).map fun nodes ↦
          (state.1 ++ nodes, state.2.recordAll prover.reply
            (prover.calls maxNumber storageKey key
              (range.wholeQuery firstNumber (lastNumber, last)))) := by
  unfold proveRange
  rw [hlast]
  simp only [Except.mapError, Asking.observed_eq, ChangesTrieProver.prove, ok_bind]
  rcases (prover.keyChangesProof (range.wholeQuery firstNumber (lastNumber, last)) maxNumber
    storageKey key).run prover.reply with error | nodes
  · rfl
  · rfl

/-- The queries for some configurations. -/
def wholeQueries (configs : List CollectedConfig) (first : BlockNumber)
    (last : BlockNumber × Hash) : List KeyChangesQuery :=
  configs.map fun range ↦ range.wholeQuery first last

theorem foldlM_proveRange
    (hlast : backend.blockchain.expectBlockNumberFromId (.hash last) = .ok lastNumber)
    (configs : List CollectedConfig) (state : List Bytes × AccessedRootsRecorder) :
    configs.foldlM (backend.proveRange prover firstNumber last maxNumber storageKey key) state =
      ((wholeQueries configs firstNumber (lastNumber, last)).mapM
        (prover.prove maxNumber storageKey key)).map fun parts ↦
          (state.1 ++ parts.flatten, state.2.recordAll prover.reply
            ((wholeQueries configs firstNumber (lastNumber, last)).flatMap
              (prover.calls maxNumber storageKey key))) := by
  induction configs generalizing state with
  | nil => simp [wholeQueries, AccessedRootsRecorder.recordAll, Except.map]
  | cons range configs ih =>
      have hqueries : wholeQueries (range :: configs) firstNumber (lastNumber, last) =
          range.wholeQuery firstNumber (lastNumber, last) ::
            wholeQueries configs firstNumber (lastNumber, last) := rfl
      rw [List.foldlM_cons, hqueries, List.mapM_cons, proveRange_eq hlast, List.flatMap_cons]
      rcases prover.prove maxNumber storageKey key
        (range.wholeQuery firstNumber (lastNumber, last)) with error | nodes
      · rfl
      · refine (ih _).trans ?_
        generalize (wholeQueries configs firstNumber (lastNumber, last)).mapM
          (prover.prove maxNumber storageKey key) = parts
        rcases parts with error | parts
        · rfl
        · simp [Except.map, AccessedRootsRecorder.recordAll_append]

/-- What some queries are answered with. -/
def answer (backend : ChangesTrieBackend) (prover : ChangesTrieProver)
    (minNumber maxNumber : BlockNumber) (storageKey : Option Bytes) (key : Bytes)
    (chtSize : BlockNumber) (queries : List KeyChangesQuery) :
    Except ChangesTrieError ChangesProof := do
  let parts ← queries.mapM (prover.prove maxNumber storageKey key)
  let roots := (AccessedRootsRecorder.recordAll prover.reply ⟨minNumber, ∅⟩
    (queries.flatMap (prover.calls maxNumber storageKey key))).requiredRootsProofs
  let rootsProof ← (backend.changesTrieRootsProof prover chtSize roots.keys).mapError .chain
  return ⟨maxNumber, parts.flatten, roots, rootsProof⟩

theorem proveConfigs_eq
    (hlast : backend.blockchain.expectBlockNumberFromId (.hash last) = .ok lastNumber)
    (hmin : backend.blockchain.expectBlockNumberFromId (.hash min) = .ok minNumber)
    (hmax : backend.blockchain.expectBlockNumberFromId (.hash max) = .ok maxNumber)
    (configs : List CollectedConfig) :
    backend.proveConfigs prover firstNumber last min max storageKey key chtSize configs =
      backend.answer prover minNumber (Nat.min backend.blockchain.info.bestNumber maxNumber)
        storageKey key chtSize (wholeQueries configs firstNumber (lastNumber, last)) := by
  simp only [proveConfigs, answer, hmin, hmax, Except.mapError, foldlM_proveRange hlast, ok_bind]
  generalize (wholeQueries configs firstNumber (lastNumber, last)).mapM
    (prover.prove (Nat.min backend.blockchain.info.bestNumber maxNumber) storageKey key) = parts
  rcases parts with error | parts
  · rfl
  · rfl

theorem keyChangesProof_of_collected
    (hfirst : backend.blockchain.expectBlockNumberFromId (.hash first) = .ok firstNumber)
    (hlast : backend.blockchain.expectBlockNumberFromId (.hash last) = .ok lastNumber)
    (hmin : backend.blockchain.expectBlockNumberFromId (.hash min) = .ok minNumber)
    (hmax : backend.blockchain.expectBlockNumberFromId (.hash max) = .ok maxNumber) :
    backend.keyChangesProofWithChtSize prover fuel first last min max storageKey key chtSize =
      (backend.requireChangesTrie fuel firstNumber last true).map fun required ↦
        required.bind fun required ↦
          backend.answer prover minNumber (Nat.min backend.blockchain.info.bestNumber maxNumber)
            storageKey key chtSize (wholeQueries required.2 firstNumber (lastNumber, last)) := by
  simp only [keyChangesProofWithChtSize, hfirst, ← proveConfigs_eq hlast hmin hmax]
  rfl

theorem answer_ok {queries : List KeyChangesQuery} {response : ChangesProof}
    (h : backend.answer prover minNumber maxNumber storageKey key chtSize queries =
      .ok response) :
    (∃ parts, queries.mapM (prover.prove maxNumber storageKey key) = .ok parts ∧
      response.proof = parts.flatten) ∧
    response.maxBlock = maxNumber ∧
    response.roots = (AccessedRootsRecorder.recordAll prover.reply ⟨minNumber, ∅⟩
      (queries.flatMap (prover.calls maxNumber storageKey key))).requiredRootsProofs ∧
    backend.changesTrieRootsProof prover chtSize response.roots.keys = .ok response.rootsProof := by
  simp only [answer, bind_eq_ok, mapError_eq_ok, pure_eq_ok] at h
  obtain ⟨parts, hparts, rootsProof, hproof, rfl⟩ := h
  exact ⟨⟨parts, hparts, rfl⟩, rfl, rfl, hproof⟩

/-- What was answered, and to which queries. -/
theorem keyChangesProof_ok
    (hfirst : backend.blockchain.expectBlockNumberFromId (.hash first) = .ok firstNumber)
    (hlast : backend.blockchain.expectBlockNumberFromId (.hash last) = .ok lastNumber)
    (hmin : backend.blockchain.expectBlockNumberFromId (.hash min) = .ok minNumber)
    (hmax : backend.blockchain.expectBlockNumberFromId (.hash max) = .ok maxNumber)
    {response : ChangesProof}
    (hrun : backend.keyChangesProofWithChtSize prover fuel first last min max storageKey key
      chtSize = some (.ok response)) :
    ∃ storage configs,
      backend.requireChangesTrie fuel firstNumber last true = some (.ok (storage, configs)) ∧
      response.maxBlock = Nat.min backend.blockchain.info.bestNumber maxNumber ∧
      backend.answer prover minNumber response.maxBlock storageKey key chtSize
        (wholeQueries configs firstNumber (lastNumber, last)) = .ok response := by
  rw [keyChangesProof_of_collected hfirst hlast hmin hmax] at hrun
  obtain ⟨required, hrequired, hanswer⟩ := Option.map_eq_some_iff.mp hrun
  rcases required with error | ⟨storage, configs⟩
  · cases hanswer
  · have hmaxBlock := (answer_ok hanswer).2.1
    refine ⟨storage, configs, hrequired, hmaxBlock, ?_⟩
    rw [hmaxBlock]
    exact hanswer

/-- The storage of a requester, who takes the older roots from a response. -/
def requesterReply (reply : (call : StorageCall) → call.Reply) (bound : BlockNumber)
    (roots : Std.TreeMap BlockNumber Hash) : (call : StorageCall) → call.Reply
  | .root anchor block => if block < bound then .ok roots[block]? else reply (.root anchor block)
  | call => reply call

theorem mem_calls_wholeQueries {configs : List CollectedConfig} {call : StorageCall} :
    call ∈ (wholeQueries configs firstNumber (lastNumber, last)).flatMap
      (prover.calls maxNumber storageKey key) ↔
      ∃ range ∈ configs, call ∈ prover.calls maxNumber storageKey key
        (CollectedConfig.wholeQuery range firstNumber (lastNumber, last)) := by
  simp [wholeQueries]

theorem rootsFrom_wholeQueries {rootAt : BlockNumber → Option Hash}
    (hroots : ∀ query, query.anchor = (lastNumber, last) → RootsFrom prover.reply minNumber rootAt
      (prover.calls maxNumber storageKey key query)) (configs : List CollectedConfig) :
    RootsFrom prover.reply minNumber rootAt
      ((wholeQueries configs firstNumber (lastNumber, last)).flatMap
        (prover.calls maxNumber storageKey key)) := by
  intro anchor n hcall
  obtain ⟨range, -, hcall⟩ := mem_calls_wholeQueries.mp hcall
  exact hroots _ rfl anchor n hcall

/-- What is sent instead of the roots below `min` is all that a requester needs
of them, and nothing that was not read. -/
theorem key_changes_proof_replays {rootAt : BlockNumber → Option Hash} {response : ChangesProof}
    (hfirst : backend.blockchain.expectBlockNumberFromId (.hash first) = .ok firstNumber)
    (hlast : backend.blockchain.expectBlockNumberFromId (.hash last) = .ok lastNumber)
    (hmin : backend.blockchain.expectBlockNumberFromId (.hash min) = .ok minNumber)
    (hmax : backend.blockchain.expectBlockNumberFromId (.hash max) = .ok maxNumber)
    (hroots : ∀ query, query.anchor = (lastNumber, last) → RootsFrom prover.reply minNumber rootAt
      (prover.calls response.maxBlock storageKey key query))
    (hrun : backend.keyChangesProofWithChtSize prover fuel first last min max storageKey key
      chtSize = some (.ok response)) :
    ∃ storage configs,
      backend.requireChangesTrie fuel firstNumber last true = some (.ok (storage, configs)) ∧
      response.maxBlock = Nat.min backend.blockchain.info.bestNumber maxNumber ∧
      (∃ parts, List.Forall₂ (fun range part ↦
        (prover.keyChangesProof (CollectedConfig.wholeQuery range firstNumber (lastNumber, last))
          response.maxBlock storageKey key).run
          (requesterReply prover.reply minNumber response.roots) = .ok part) configs parts ∧
        response.proof = parts.flatten) ∧
      ∀ block root, response.roots[block]? = some root ↔
        block < minNumber ∧ rootAt block = some root ∧ ∃ range ∈ configs, ∃ anchor,
          .root anchor block ∈ prover.calls response.maxBlock storageKey key
            (CollectedConfig.wholeQuery range firstNumber (lastNumber, last)) := by
  obtain ⟨storage, configs, hrequired, hmaxBlock, hanswer⟩ :=
    keyChangesProof_ok hfirst hlast hmin hmax hrun
  obtain ⟨⟨parts, hparts, hproof⟩, -, hnoted, -⟩ := answer_ok hanswer
  have hmem : ∀ block root, response.roots[block]? = some root ↔ block < minNumber ∧
      rootAt block = some root ∧ ∃ range ∈ configs, ∃ anchor, .root anchor block ∈
        prover.calls response.maxBlock storageKey key
          (CollectedConfig.wholeQuery range firstNumber (lastNumber, last)) := by
    intro block root
    rw [hnoted, AccessedRootsRecorder.getElem?_recordAll (rootsFrom_wholeQueries hroots configs)]
    constructor
    · rintro ⟨hlt, hroot, anchor, hcall⟩
      obtain ⟨range, hrange, hcall⟩ := mem_calls_wholeQueries.mp hcall
      exact ⟨hlt, hroot, range, hrange, anchor, hcall⟩
    · rintro ⟨hlt, hroot, range, hrange, anchor, hcall⟩
      exact ⟨hlt, hroot, anchor, mem_calls_wholeQueries.mpr ⟨range, hrange, hcall⟩⟩
  refine ⟨storage, configs, hrequired, hmaxBlock, ⟨parts, ?_, hproof⟩, hmem⟩
  rw [mapM_eq_ok, wholeQueries, List.forall₂_map_left_iff] at hparts
  have hparts' := (List.forall₂_and_left configs parts).mpr ⟨fun _ hrange ↦ hrange, hparts⟩
  refine hparts'.imp ?_
  rintro range part ⟨hrange, hpart⟩
  rw [← mapError_eq_ok.mp hpart]
  apply Asking.run_eq_of_asked
  -- the roots that are asked for are in the response
  rintro (hash | ⟨anchor, block⟩ | hash | ⟨hash, nodePrefix⟩) hcall
  · rfl
  · by_cases hlt : block < minNumber
    · have hroot : response.roots[block]? = rootAt block := by
        apply Option.ext
        intro root
        rw [hmem]
        constructor
        · rintro ⟨-, hroot, -⟩
          exact hroot
        · intro hroot
          exact ⟨hlt, hroot, range, hrange, anchor, hcall⟩
      rw [hroots _ rfl anchor block hcall hlt, ← hroot]
      exact if_pos hlt
    · exact if_neg hlt
  · rfl
  · rfl

/-- The root of a changes trie in the canonical header of its block. -/
def canonicalRoot (backend : ChangesTrieBackend) (block : BlockNumber) : Option Hash :=
  match backend.blockchain.header (.number block) with
  | .ok (some header) => header.changesTrieRoot
  | _ => none

theorem chtRoots_eq_some {chtStart : BlockNumber} {i : ℕ} {root : Hash}
    (h : backend.canonicalRoot (chtStart + i) = some root) :
    backend.chtRoots chtStart i = .ok (some root) := by
  unfold canonicalRoot at h
  split at h
  · rename_i header hheader
    rw [chtRoots, hheader]
    exact congrArg Except.ok h
  · cases h

theorem changesTrieRootsProof_ok {blocks : List BlockNumber} {proof : StorageProof}
    (h : backend.changesTrieRootsProof prover chtSize blocks = .ok proof) :
    ∃ groups proofs, prover.forEachChtGroup chtSize blocks = groups.map .ok ∧
      List.Forall₂ (fun group proof ↦
        backend.changesTrieRootsProofAtCht prover chtSize group.1 group.2 = .ok proof)
        groups proofs ∧
      proof = prover.merge proofs := by
  rw [changesTrieRootsProof, bind_eq_ok] at h
  obtain ⟨proofs, hproofs, hmerge⟩ := h
  obtain ⟨groups, hgroups, hproofs⟩ := forall₂_bind_ok (mapM_eq_ok.mp hproofs)
  exact ⟨groups, proofs, hgroups, hproofs, (pure_eq_ok.mp hmerge).symm⟩

/-- Each root that is sent is proved by the canonical hash trie of its block. -/
theorem key_changes_proof_roots_proved {response : ChangesProof}
    (hfirst : backend.blockchain.expectBlockNumberFromId (.hash first) = .ok firstNumber)
    (hlast : backend.blockchain.expectBlockNumberFromId (.hash last) = .ok lastNumber)
    (hmin : backend.blockchain.expectBlockNumberFromId (.hash min) = .ok minNumber)
    (hmax : backend.blockchain.expectBlockNumberFromId (.hash max) = .ok maxNumber)
    (hroots : ∀ query, query.anchor = (lastNumber, last) →
      RootsFrom prover.reply minNumber backend.canonicalRoot
        (prover.calls response.maxBlock storageKey key query))
    (hgroups : prover.GroupsByCht chtSize)
    (hrun : backend.keyChangesProofWithChtSize prover fuel first last min max storageKey key
      chtSize = some (.ok response)) :
    ∃ groups proofs,
      (groups.map Prod.snd).flatten = response.roots.keys ∧
      response.rootsProof = prover.merge proofs ∧
      List.Forall₂ (fun group proof ↦ prover.buildProof chtSize group.1 group.2
        (backend.chtRoots (prover.startNumber chtSize group.1)) = .ok proof) groups proofs ∧
      ∀ group ∈ groups, ∀ block ∈ group.2, block < minNumber ∧ ∃ i root,
        prover.startNumber chtSize group.1 + i = block ∧
        backend.chtRoots (prover.startNumber chtSize group.1) i = .ok (some root) ∧
        response.roots[block]? = some root := by
  obtain ⟨storage, configs, -, -, hanswer⟩ := keyChangesProof_ok hfirst hlast hmin hmax hrun
  obtain ⟨-, -, hnoted, hproof⟩ := answer_ok hanswer
  obtain ⟨groups, proofs, hgrouped, hproofs, hmerge⟩ := changesTrieRootsProof_ok hproof
  have hascending : response.roots.keys.Pairwise (· < ·) := by
    simpa [Nat.compare_eq_lt] using response.roots.ordered_keys
  have hflatten := hgroups.flatten response.roots.keys groups hascending hgrouped
  refine ⟨groups, proofs, hflatten, hmerge, hproofs, ?_⟩
  intro group hgroup block hblock
  have hkey : block ∈ response.roots.keys := by
    rw [← hflatten]
    exact List.mem_flatten.mpr ⟨group.2, List.mem_map_of_mem hgroup, hblock⟩
  obtain ⟨root, hroot⟩ : ∃ root, response.roots[block]? = some root := by
    rw [← Option.isSome_iff_exists, ← Std.TreeMap.mem_iff_isSome_getElem?]
    exact Std.TreeMap.mem_keys.mp hkey
  have hfound := hroot
  rw [hnoted, AccessedRootsRecorder.getElem?_recordAll (rootsFrom_wholeQueries hroots configs)]
    at hfound
  obtain ⟨i, rfl⟩ := Nat.exists_eq_add_of_le
    (hgroups.start_le response.roots.keys groups hascending hgrouped group hgroup block hblock)
  exact ⟨hfound.1, i, root, rfl, chtRoots_eq_some hfound.2.1, hroot⟩

/-! ## One configuration or several -/

section Covering

variable {storage : ChangesTrieStorage} {chain : ConfiguredChain} {failIfDisabled : Bool}

theorem collectConfigs_extends {current : Hash} {configs result : List CollectedConfig}
    (h : backend.collectConfigs storage firstNumber failIfDisabled fuel current configs =
      some (.ok result)) : configs <+: result := by
  induction fuel generalizing current configs with
  | zero => cases h
  | succ fuel ih =>
      unfold collectConfigs at h
      split at h
      · cases h
      · split at h
        · split at h
          · cases h
          · cases h
            exact List.prefix_rfl
        · dsimp only at h
          split at h
          · cases h
            exact List.prefix_append _ _
          · split at h
            · cases h
            · exact (List.prefix_append _ _).trans (ih h)

/-- The first configuration that is collected is the one of the last block. -/
theorem collected_head (hserves : backend.Serves storage chain lastNumber)
    (hpos : 0 < firstNumber) (hfuel : 0 < fuel) {ranges : List CollectedConfig}
    (hrun : backend.collectConfigs storage firstNumber true fuel (chain.hash lastNumber) [] =
      some (.ok ranges)) :
    ∃ endBlock config rest, chain.EndsAt lastNumber lastNumber endBlock ∧
      ranges = ⟨chain.zero lastNumber, endBlock, config⟩ :: rest ∧
      (chain.zero lastNumber < firstNumber → rest = []) := by
  obtain ⟨fuel, rfl⟩ : ∃ more, fuel = more + 1 := Nat.exists_eq_succ_of_ne_zero hfuel.ne'
  have hround : Round backend storage chain lastNumber firstNumber true fuel lastNumber :=
    round hserves (Nat.le_refl lastNumber)
  rcases hround with
    ⟨-, hrun'⟩ | ⟨endBlock, config, hends, -, -, hrun'⟩ |
    ⟨endBlock, config, k, hends, -, hfurther, hzero, hrun'⟩ | ⟨_, _, _, _, _, hnone, -⟩
  · rw [hrun' []] at hrun
    cases hrun
  · rw [hrun' []] at hrun
    cases hrun
    exact ⟨endBlock, config, [], hends, rfl, fun _ ↦ rfl⟩
  · rw [hrun' []] at hrun
    obtain ⟨rest, rfl⟩ := collectConfigs_extends hrun
    rw [← hzero] at hfurther ⊢
    exact ⟨endBlock, config, rest, hends, rfl, fun hlt ↦ absurd hlt (Nat.not_lt.mpr hfurther)⟩
  · exact absurd hnone hpos.ne'

/-- Where one configuration covers the range, its query is for all of it. -/
theorem query_eq_wholeQuery {range : CollectedConfig} {top : BlockNumber}
    (hends : chain.EndsAt top top range.endBlock) (hlt : range.zero < firstNumber) :
    range.query firstNumber (top, chain.hash top) =
      range.wholeQuery firstNumber (top, chain.hash top) := by
  have hanchor : (range.query firstNumber (top, chain.hash top)).anchor = (top, chain.hash top) :=
    ConfiguredChain.ComesTo.anchor (Or.inl ⟨rfl, rfl⟩) hends range.zero range.config
  have hfirst : max firstNumber (range.zero + 1) = firstNumber := Nat.max_eq_left hlt
  have hquery : range.query firstNumber (top, chain.hash top) =
      { range.wholeQuery firstNumber (top, chain.hash top) with
        first := max firstNumber (range.zero + 1)
        anchor := (range.query firstNumber (top, chain.hash top)).anchor } := rfl
  rw [hquery, hanchor, hfirst]
  rfl

/-- The queries of a proof are for the whole range, which is what `key_changes`
asks for exactly where one configuration covers it. -/
theorem key_changes_proof_covers_iff (hserves : backend.Serves storage chain lastNumber)
    (hfirst : backend.blockchain.expectBlockNumberFromId (.hash first) = .ok firstNumber)
    (hlast : backend.blockchain.expectBlockNumberFromId (.hash (chain.hash lastNumber)) =
      .ok lastNumber)
    (hmin : backend.blockchain.expectBlockNumberFromId (.hash min) = .ok minNumber)
    (hmax : backend.blockchain.expectBlockNumberFromId (.hash max) = .ok maxNumber)
    (hpos : 0 < firstNumber) (hle : firstNumber ≤ lastNumber) (hfuel : lastNumber < fuel)
    (henabled : ∀ m, firstNumber ≤ m + 1 → m ≤ lastNumber → chain.config m ≠ none) :
    ∃ queries wholes,
      chain.Covers firstNumber lastNumber queries ∧
      backend.keyChanges fuel firstNumber (.hash (chain.hash lastNumber)) storageKey key =
        some ((queries.mapM (backend.search storage storageKey key)).map List.flatten) ∧
      backend.keyChangesProofWithChtSize prover fuel first (chain.hash lastNumber) min max
        storageKey key chtSize = some (backend.answer prover minNumber
          (Nat.min backend.blockchain.info.bestNumber maxNumber) storageKey key chtSize wholes) ∧
      wholes.length = queries.length ∧
      (∀ query ∈ wholes, query.span = (firstNumber, lastNumber)) ∧
      (wholes = queries ↔ chain.zero lastNumber < firstNumber) ∧
      (chain.Covers firstNumber lastNumber wholes ↔ chain.zero lastNumber < firstNumber) := by
  have hlast' : backend.expectLast (.hash (chain.hash lastNumber)) =
      .ok (lastNumber, chain.hash lastNumber) := by
    simp [expectLast, hlast, Blockchain.expectBlockHashFromId, Except.mapError]
  rcases collectConfigs_covers hserves hpos hfuel (Or.inl ⟨rfl, rfl⟩) hle [] with
    ⟨⟨m, hm, hm', hnone⟩, -⟩ | ⟨-, ranges, hrun, hcovers⟩
  · exact absurd hnone (henabled m hm hm')
  rw [List.nil_append] at hrun
  obtain ⟨endBlock, config, rest, hends, hranges, hone⟩ :=
    collected_head hserves hpos (Nat.zero_lt_of_lt hfuel) hrun
  have hproof : backend.keyChangesProofWithChtSize prover fuel first (chain.hash lastNumber) min
      max storageKey key chtSize = some (backend.answer prover minNumber
        (Nat.min backend.blockchain.info.bestNumber maxNumber) storageKey key chtSize
        (wholeQueries ranges firstNumber (lastNumber, chain.hash lastNumber))) := by
    rw [keyChangesProof_of_collected hfirst hlast hmin hmax]
    simp only [requireChangesTrie, hserves.storage_eq, hrun]
    rfl
  -- one configuration
  have hsame : chain.zero lastNumber < firstNumber →
      wholeQueries ranges firstNumber (lastNumber, chain.hash lastNumber) =
        ranges.map fun range ↦ range.query firstNumber (lastNumber, chain.hash lastNumber) := by
    intro hlt
    obtain rfl := hone hlt
    rw [hranges, wholeQueries, List.map_singleton, List.map_singleton,
      query_eq_wholeQuery hends hlt]
  -- a later one begins in the range, at a block that it does not cover
  have hother : chain.Covers firstNumber lastNumber
      (wholeQueries ranges firstNumber (lastNumber, chain.hash lastNumber)) →
      chain.zero lastNumber < firstNumber := by
    intro hwholes
    have hactive := hwholes.active
      (CollectedConfig.wholeQuery ⟨chain.zero lastNumber, endBlock, config⟩ firstNumber
        (lastNumber, chain.hash lastNumber)) (by rw [hranges]; exact List.mem_cons_self)
      (firstNumber - 1) (by rw [Nat.sub_add_cancel hpos]; exact Nat.le_refl firstNumber)
      (by rw [Nat.sub_add_cancel hpos]; exact hle)
    have hzero : chain.zero (firstNumber - 1) = chain.zero lastNumber := hactive.1
    calc
      chain.zero lastNumber = chain.zero (firstNumber - 1) := hzero.symm
      _ ≤ firstNumber - 1 := chain.zero_le _
      _ < firstNumber := Nat.sub_lt hpos Nat.one_pos
  refine ⟨_, wholeQueries ranges firstNumber (lastNumber, chain.hash lastNumber), hcovers,
    keyChanges_of_collected hserves hlast' storageKey key hrun, hproof, by simp [wholeQueries],
    ?_, ⟨?_, hsame⟩, hother, ?_⟩
  · intro query hquery
    obtain ⟨range, -, rfl⟩ := List.mem_map.mp hquery
    rfl
  · intro heq
    rw [← heq] at hcovers
    exact hother hcovers
  · intro hlt
    rw [hsame hlt]
    exact hcovers

end Covering

end ChangesTrieBackend

namespace Sample

/-- The five blocks, with their headers by number; each has a changes trie. -/
def fiveHeaders : ChangesTrieBackend where
  blockchain := { fiveBlocks.blockchain with
    header
      | .hash hash => fiveBlocks.blockchain.header (.hash hash)
      | .number n => .ok (if n ≤ 4 then
          some ⟨[], n, [], [], [.seal [] [], .changesTrieRoot [UInt8.ofNat n]]⟩ else none) }
  changesTrieStorage := some fiveTries

theorem fiveHeaders_serves : fiveHeaders.Serves fiveTries configuredChain 4 where
  storage_eq := rfl
  header := fiveBlocks_serves.header
  range := fiveBlocks_serves.range
  genesis := fiveBlocks_serves.genesis

/-- Reads the roots of the first block asked for and of the first block of the
configuration, which are the nodes of the proof.  The blocks that are grouped
are of tries of their own. -/
def rootReader : ChangesTrieProver where
  reply
    | .root _ n => .ok (if n ≤ 4 then some [UInt8.ofNat n] else none)
    | .buildAnchor _ => .error ""
    | .withCachedChangedKeys _ => none
    | .get _ _ => .ok none
  keyChangesProof query _ _ _ :=
    .ask (.root query.anchor query.first) fun reply ↦
      .ask (.root query.anchor (query.zero + 1)) fun reply' ↦ .done do
        let root ← reply
        let root' ← reply'
        return root.toList ++ root'.toList
  forEachChtGroup chtSize blocks := blocks.map fun n ↦
    if n = 0 then .error (.backend "Cannot compute CHT root for the block #0")
    else .ok ((n - 1) / chtSize, [n])
  startNumber chtSize chtNum := chtNum * chtSize + 1
  buildProof chtSize chtNum blocks roots :=
    .ok (blocks.filterMap fun n ↦ (roots (n - (chtNum * chtSize + 1))).toOption.join)
  merge := List.flatten

theorem rootsFrom (calls : List StorageCall) :
    RootsFrom rootReader.reply 4 fiveHeaders.canonicalRoot calls := by
  intro anchor n _ hn
  have hn' : n ≤ 4 := Nat.le_of_lt hn
  simp only [rootReader, ChangesTrieBackend.canonicalRoot, fiveHeaders, if_pos hn']
  rfl

theorem groupsByCht : rootReader.GroupsByCht 2 where
  flatten blocks groups hascending hgroups := by
    induction blocks generalizing groups with
    | nil =>
        obtain rfl : groups = [] := List.map_eq_nil_iff.mp hgroups.symm
        rfl
    | cons n blocks ih =>
        rcases groups with _ | ⟨group, groups⟩
        · cases hgroups
        · obtain ⟨hfirst, hmore⟩ := List.cons.inj hgroups
          dsimp only at hfirst
          split at hfirst
          · cases hfirst
          · cases hfirst
            exact congrArg (n :: ·) (ih groups hascending.of_cons hmore)
  start_le blocks groups _ hgroups group hgroup block hblock := by
    have hmem : Except.ok group ∈ rootReader.forEachChtGroup 2 blocks := by
      rw [hgroups]
      exact List.mem_map_of_mem hgroup
    obtain ⟨n, -, hn⟩ := List.mem_map.mp hmem
    split at hn
    · cases hn
    · rename_i hzero
      cases hn
      obtain rfl := List.mem_singleton.mp hblock
      calc
        (block - 1) / 2 * 2 + 1 ≤ block - 1 + 1 := Nat.succ_le_succ (Nat.div_mul_le_self _ _)
        _ = block := Nat.sub_add_cancel (Nat.pos_of_ne_zero hzero)

end Sample

namespace ChangesTrieBackend

/-- The response holds the roots of the blocks one and three. -/
theorem key_changes_proof_replays_five : ∃ response,
    Sample.fiveHeaders.keyChangesProofWithChtSize Sample.rootReader 5 [1] [4] [4] [4] none [] 2 =
      some (.ok response) ∧
    response.roots.toList = [(1, [1]), (3, [3])] ∧ response.proof = [[1], [3], [1], [1]] ∧
    ∃ configs parts, List.Forall₂ (fun range part ↦
      (Sample.rootReader.keyChangesProof (CollectedConfig.wholeQuery range 1 (4, [4]))
        response.maxBlock none []).run
        (requesterReply Sample.rootReader.reply 4 response.roots) = .ok part) configs parts ∧
      response.proof = parts.flatten := by
  obtain ⟨response, hrun, hroots, hproof⟩ : ∃ response,
      Sample.fiveHeaders.keyChangesProofWithChtSize Sample.rootReader 5 [1] [4] [4] [4] none [] 2 =
        some (.ok response) ∧
      response.roots.toList = [(1, [1]), (3, [3])] ∧ response.proof = [[1], [3], [1], [1]] :=
    ⟨_, rfl, rfl, rfl⟩
  have hnumber : Sample.fiveHeaders.blockchain.expectBlockNumberFromId (.hash [1]) = .ok 1 := rfl
  obtain ⟨-, configs, -, -, ⟨parts, hparts, hparts'⟩, -⟩ :=
    key_changes_proof_replays hnumber rfl rfl rfl (fun _ _ ↦ Sample.rootsFrom _) hrun
  exact ⟨response, hrun, hroots, hproof, configs, parts, hparts, hparts'⟩

theorem key_changes_proof_roots_proved_five : ∃ response,
    Sample.fiveHeaders.keyChangesProofWithChtSize Sample.rootReader 5 [1] [4] [4] [4] none [] 2 =
      some (.ok response) ∧
    response.rootsProof = [[1], [3]] ∧
    ∃ groups : List (BlockNumber × List BlockNumber), (groups.map Prod.snd).flatten = [1, 3] ∧
      ∀ group ∈ groups, ∀ block ∈ group.2, ∃ i root, group.1 * 2 + 1 + i = block ∧
        Sample.fiveHeaders.chtRoots (group.1 * 2 + 1) i = .ok (some root) := by
  obtain ⟨response, hrun, hkeys, hproof⟩ : ∃ response,
      Sample.fiveHeaders.keyChangesProofWithChtSize Sample.rootReader 5 [1] [4] [4] [4] none [] 2 =
        some (.ok response) ∧ response.roots.keys = [1, 3] ∧ response.rootsProof = [[1], [3]] :=
    ⟨_, rfl, rfl, rfl⟩
  obtain ⟨groups, -, hflatten, -, -, hgroups⟩ := key_changes_proof_roots_proved rfl rfl rfl rfl
    (fun _ _ ↦ Sample.rootsFrom _) Sample.groupsByCht hrun
  refine ⟨response, hrun, hproof, groups, hflatten.trans hkeys, ?_⟩
  intro group hgroup block hblock
  obtain ⟨-, i, root, hi, hroot, -⟩ := hgroups group hgroup block hblock
  exact ⟨i, root, hi, hroot⟩

/-- Two configurations cover the blocks one to four, and one the blocks from
three on. -/
theorem key_changes_proof_covers_iff_five :
    (∃ queries wholes, Sample.configuredChain.Covers 1 4 queries ∧
      wholes.length = queries.length ∧ ¬ Sample.configuredChain.Covers 1 4 wholes ∧
      Sample.fiveHeaders.keyChangesProofWithChtSize Sample.rootReader 5 [1] [4] [4] [4] none [] 2 =
        some (Sample.fiveHeaders.answer Sample.rootReader 4 4 none [] 2 wholes)) ∧
    ∃ wholes, Sample.configuredChain.Covers 3 4 wholes ∧
      Sample.fiveHeaders.keyChangesProofWithChtSize Sample.rootReader 5 [3] [4] [4] [4] none [] 2 =
        some (Sample.fiveHeaders.answer Sample.rootReader 4 4 none [] 2 wholes) := by
  have henabled : ∀ m, Sample.configuredChain.config m ≠ none := fun m ↦ Option.some_ne_none _
  constructor
  · obtain ⟨queries, wholes, hcovers, -, hrun, hlength, -, -, hiff⟩ :=
      @key_changes_proof_covers_iff _ Sample.rootReader 5 [1] [4] [4] none [] 1 4 4 4 2 _ _
        Sample.fiveHeaders_serves rfl rfl rfl rfl Nat.one_pos (by decide) (Nat.lt_succ_self 4)
        (fun m _ _ ↦ henabled m)
    refine ⟨queries, wholes, hcovers, hlength, ?_, hrun⟩
    rw [hiff]
    decide
  · obtain ⟨-, wholes, -, -, hrun, -, -, -, hiff⟩ :=
      @key_changes_proof_covers_iff _ Sample.rootReader 5 [3] [4] [4] none [] 3 4 4 4 2 _ _
        Sample.fiveHeaders_serves rfl rfl rfl rfl (by decide) (by decide) (Nat.lt_succ_self 4)
        (fun m _ _ ↦ henabled m)
    exact ⟨wholes, hiff.mpr (by decide), hrun⟩

end ChangesTrieBackend

end SubArchive
