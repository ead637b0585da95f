import SubArchive.Backend
import SubArchive.Library.Tiling

/-!
# Queries of changes tries

`Client::key_changes` goes from its last block up to its first one through the
configurations of changes tries, and makes one query for each of them.
`Client::max_key_changes_range` looks how far up it could go.
-/

namespace SubArchive

open Results Tiling

structure ChangesTrieConfiguration where
  digestInterval : ℕ
  digestLevels : ℕ
deriving DecidableEq, Repr

/-- A configuration is active from the child of its zero block to its end. -/
structure ConfigurationRange where
  zero : BlockNumber × Hash
  endBlock : Option (BlockNumber × Hash)
  config : Option ChangesTrieConfiguration
deriving DecidableEq, Repr

inductive ChangesTrieError where
  | chain (error : Error)
  | changesTriesNotSupported
  | changesTrieAccessFailed (message : String)
deriving DecidableEq, Repr

/-- What `require_changes_trie` collects of each configuration. -/
structure CollectedConfig where
  zero : BlockNumber
  endBlock : Option (BlockNumber × Hash)
  config : ChangesTrieConfiguration
deriving DecidableEq, Repr

/-- What `sp_state_machine::key_changes` is asked for. -/
structure KeyChangesQuery where
  config : ChangesTrieConfiguration
  zero : BlockNumber
  endNumber : Option BlockNumber
  first : BlockNumber
  anchor : BlockNumber × Hash
deriving DecidableEq, Repr

structure ChangesTrieStorage where
  configurationAt : BlockId → Except Error ConfigurationRange
  oldestPrunedDigestRangeEnd : BlockNumber
  /-- `sp_state_machine::key_changes` on the storage, with the best number. -/
  keyChanges : KeyChangesQuery → BlockNumber → Option Bytes → Bytes →
    Except String (List (BlockNumber × ℕ))

structure ChangesTrieBackend where
  blockchain : Blockchain
  changesTrieStorage : Option ChangesTrieStorage

/-- `expect_header` -/
def Blockchain.expectHeader (chain : Blockchain) (id : BlockId) : Except Error Header := do
  match ← chain.header id with
  | some header => .ok header
  | none => .error (.unknownBlock s!"Expect header: {repr id}")

theorem Blockchain.expectHeader_of_header {chain : Blockchain} {id : BlockId} {header : Header}
    (h : chain.header id = .ok (some header)) : chain.expectHeader id = .ok header := by
  rw [expectHeader, h]
  rfl

/-- The range of the configuration that is part of the range asked for. -/
def CollectedConfig.query (range : CollectedConfig) (first : BlockNumber)
    (last : BlockNumber × Hash) : KeyChangesQuery where
  config := range.config
  zero := range.zero
  endNumber := range.endBlock.map Prod.fst
  first := max first (range.zero + 1)
  anchor :=
    match range.endBlock with
    | some endBlock => if last.1 > endBlock.1 then endBlock else last
    | none => last

namespace ChangesTrieBackend

/-- The loop of `require_changes_trie`, for some rounds. -/
def collectConfigs (backend : ChangesTrieBackend) (storage : ChangesTrieStorage)
    (first : BlockNumber) (failIfDisabled : Bool) :
    ℕ → Hash → List CollectedConfig → Option (Except ChangesTrieError (List CollectedConfig))
  | 0, _, _ => none
  | fuel + 1, current, configs =>
      match storage.configurationAt (.hash current) with
      | .error error => some (.error (.chain error))
      | .ok range =>
          match range.config with
          | none =>
              if failIfDisabled then some (.error .changesTriesNotSupported) else some (.ok configs)
          | some config =>
              let configs := configs ++ [⟨range.zero.1, range.endBlock, config⟩]
              if range.zero.1 < first then some (.ok configs)
              else
                match backend.blockchain.expectHeader (.hash range.zero.2) with
                | .error error => some (.error (.chain error))
                | .ok header =>
                    collectConfigs backend storage first failIfDisabled fuel header.parentHash
                      configs

def requireChangesTrie (backend : ChangesTrieBackend) (fuel : ℕ) (first : BlockNumber)
    (last : Hash) (failIfDisabled : Bool) :
    Option (Except ChangesTrieError (ChangesTrieStorage × List CollectedConfig)) :=
  match backend.changesTrieStorage with
  | none => some (.error .changesTriesNotSupported)
  | some storage =>
      (backend.collectConfigs storage first failIfDisabled fuel last []).map fun result ↦
        result.map fun configs ↦ (storage, configs)

/-- Number and hash of the last block. -/
def expectLast (backend : ChangesTrieBackend) (last : BlockId) :
    Except ChangesTrieError (BlockNumber × Hash) :=
  Except.mapError .chain do
    let lastNumber ← backend.blockchain.expectBlockNumberFromId last
    let lastHash ← backend.blockchain.expectBlockHashFromId last
    return (lastNumber, lastHash)

def maxKeyChangesRange (backend : ChangesTrieBackend) (fuel : ℕ) (first : BlockNumber)
    (last : BlockId) : Option (Except ChangesTrieError (Option (BlockNumber × BlockId))) :=
  match backend.expectLast last with
  | .error error => some (.error error)
  | .ok (lastNumber, lastHash) =>
      if first > lastNumber then
        some (.error (.changesTrieAccessFailed "Invalid changes trie range"))
      else
        (backend.requireChangesTrie fuel first lastHash false).map fun
          | .error _ => .ok none
          | .ok (storage, configs) => .ok <| configs.getLast?.map fun range ↦
              (max range.zero storage.oldestPrunedDigestRangeEnd, last)

/-- One query of `key_changes`. -/
def search (backend : ChangesTrieBackend) (storage : ChangesTrieStorage)
    (storageKey : Option Bytes) (key : Bytes) (query : KeyChangesQuery) :
    Except ChangesTrieError (List (BlockNumber × ℕ)) :=
  (storage.keyChanges query backend.blockchain.info.bestNumber storageKey key).mapError
    .changesTrieAccessFailed

def keyChanges (backend : ChangesTrieBackend) (fuel : ℕ) (first : BlockNumber) (last : BlockId)
    (storageKey : Option Bytes) (key : Bytes) :
    Option (Except ChangesTrieError (List (BlockNumber × ℕ))) :=
  match backend.expectLast last with
  | .error error => some (.error error)
  | .ok lastBlock =>
      (backend.requireChangesTrie fuel first lastBlock.2 true).map fun required ↦ do
        let (storage, configs) ← required
        configs.foldlM (fun result range ↦ do
          let more ← backend.search storage storageKey key (range.query first lastBlock)
          return result ++ more) []

end ChangesTrieBackend

/-! ## A chain with configurations -/

/-- The blocks of a chain by their numbers, each with the configuration that is
active from its child on and the number of that configuration's zero block. -/
structure ConfiguredChain where
  hash : ℕ → Hash
  zero : ℕ → ℕ
  config : ℕ → Option ChangesTrieConfiguration
  zero_le : ∀ n, zero n ≤ n
  constant : ∀ {m n}, zero n ≤ m → m ≤ n → zero m = zero n ∧ config m = config n

/-- The end of the configuration that is active after block `n`, as far as
block `last` shows it. -/
def ConfiguredChain.EndsAt (chain : ConfiguredChain) (last n : ℕ) :
    Option (BlockNumber × Hash) → Prop
  | none => chain.zero last = chain.zero n
  | some endBlock =>
      last < endBlock.1 ∧ chain.zero last = chain.zero n ∨
        ∃ e ≤ last, n < e ∧ endBlock = (e, chain.hash e) ∧ chain.zero e = e ∧
          chain.zero (e - 1) = chain.zero n

/-- The backend has the blocks of the chain up to `last` and the configurations
of their changes tries; the genesis block has no parent. -/
structure ChangesTrieBackend.Serves (backend : ChangesTrieBackend) (storage : ChangesTrieStorage)
    (chain : ConfiguredChain) (last : ℕ) : Prop where
  storage_eq : backend.changesTrieStorage = some storage
  header : ∀ n < last, ∃ header, backend.blockchain.header (.hash (chain.hash (n + 1))) =
    .ok (some header) ∧ header.parentHash = chain.hash n
  range : ∀ n ≤ last, ∃ endBlock, chain.EndsAt last n endBlock ∧
    storage.configurationAt (.hash (chain.hash n)) =
      .ok ⟨(chain.zero n, chain.hash (chain.zero n)), endBlock, chain.config n⟩
  genesis : ∃ header error, backend.blockchain.header (.hash (chain.hash 0)) = .ok (some header) ∧
    storage.configurationAt (.hash header.parentHash) = .error error

/-! ## The ranges of the queries -/

def KeyChangesQuery.span (query : KeyChangesQuery) : Span := (query.first, query.anchor.1)

/-- The queries tile the blocks from `first` to `last`, and ask for each block
with the configuration it was made with. -/
structure ConfiguredChain.Covers (chain : ConfiguredChain) (first last : ℕ)
    (queries : List KeyChangesQuery) : Prop where
  tiles : Tiles first (last + 1) (queries.map KeyChangesQuery.span)
  anchor : ∀ query ∈ queries, query.anchor.2 = chain.hash query.anchor.1
  active : ∀ query ∈ queries, ∀ m, query.first ≤ m + 1 → m + 1 ≤ query.anchor.1 →
    chain.zero m = query.zero ∧ chain.config m = some query.config

namespace ConfiguredChain

variable {chain : ConfiguredChain} {last n top first : ℕ}
  {endBlock : Option (BlockNumber × Hash)}

/-- The loop comes to block `n`, whose configuration is queried up to `top`. -/
def ComesTo (chain : ConfiguredChain) (last n top : ℕ) : Prop :=
  n = last ∧ top = last ∨ n < last ∧ chain.zero (n + 1) = n + 1 ∧ top = n + 1

theorem ComesTo.le (h : chain.ComesTo last n top) : n ≤ last ∧ n ≤ top ∧ top ≤ n + 1 := by
  rcases h with ⟨rfl, rfl⟩ | ⟨hlt, -, rfl⟩ <;> omega

/-- A configuration ends at the zero block of the next one. -/
theorem EndsAt.of_next (h : chain.EndsAt last n endBlock) (hlt : n < last)
    (hnext : chain.zero (n + 1) = n + 1) : endBlock = some (n + 1, chain.hash (n + 1)) := by
  have hle := chain.zero_le n
  -- no later block has the configuration of block `n`
  have hother : ∀ m, n + 1 ≤ m → chain.zero m ≠ chain.zero n := by
    intro m hm heq
    have hzero := (chain.constant (m := n + 1) (n := m) (by omega) hm).1
    omega
  rcases endBlock with _ | endBlock
  · exact absurd h (hother last hlt)
  · rcases h with ⟨-, hsame⟩ | ⟨e, -, hlt', rfl, -, hsame⟩
    · exact absurd hsame (hother last hlt)
    · have heq : e = n + 1 := by
        by_contra hne
        exact hother (e - 1) (by omega) hsame
      rw [heq]

/-- The anchor is where the configuration ends, or the last block. -/
theorem ComesTo.anchor (h : chain.ComesTo last n top) (hends : chain.EndsAt last n endBlock)
    (number : BlockNumber) (config : ChangesTrieConfiguration) :
    (CollectedConfig.query ⟨number, endBlock, config⟩ first (last, chain.hash last)).anchor =
      (top, chain.hash top) := by
  unfold CollectedConfig.query
  rcases h with ⟨rfl, rfl⟩ | ⟨hlt, hnext, rfl⟩
  · rcases endBlock with _ | endBlock
    · rfl
    · have hnot : ¬ endBlock.1 < top := by
        rcases hends with ⟨hlt, -⟩ | ⟨e, he, hlt, -⟩
        · exact Nat.not_lt.mpr (Nat.le_of_lt hlt)
        · exact absurd hlt (Nat.not_lt.mpr he)
      exact if_neg hnot
  · rw [hends.of_next hlt hnext]
    by_cases hlast : last > n + 1
    · simp [hlast]
    · obtain rfl : last = n + 1 := by omega
      simp

theorem covers_nil (hfirst : 0 < first) : chain.Covers first (first - 1) [] where
  tiles := Nat.sub_add_cancel hfirst
  anchor := by simp
  active := by simp

theorem Covers.cons {query : KeyChangesQuery} {queries : List KeyChangesQuery} {bottom : ℕ}
    (h : chain.Covers first bottom queries) (hfirst : first ≤ bottom + 1) (hbottom : bottom ≤ last)
    (hquery : query.first = bottom + 1) (hanchor : query.anchor = (last, chain.hash last))
    (hactive : ∀ m, bottom ≤ m → m + 1 ≤ last →
      chain.zero m = query.zero ∧ chain.config m = some query.config) :
    chain.Covers first last (query :: queries) where
  tiles := by
    refine ⟨?_, ?_, ?_, ?_⟩
    · simp [KeyChangesQuery.span, hanchor]
    · simpa [KeyChangesQuery.span, hquery] using hbottom
    · simpa [KeyChangesQuery.span, hquery] using hfirst
    · simpa [KeyChangesQuery.span, hquery] using h.tiles
  anchor := by
    intro query' hmem
    rcases List.mem_cons.mp hmem with rfl | hmem
    · rw [hanchor]
    · exact h.anchor query' hmem
  active := by
    intro query' hmem m hm hm'
    rcases List.mem_cons.mp hmem with rfl | hmem
    · rw [hquery] at hm
      rw [hanchor] at hm'
      exact hactive m (Nat.le_of_succ_le_succ hm) hm'
    · exact h.active query' hmem m hm hm'

theorem Covers.once {queries : List KeyChangesQuery} (h : chain.Covers first last queries) {m : ℕ}
    (hfirst : first ≤ m) (hlast : m ≤ last) :
    (queries.filter fun query ↦ query.first ≤ m ∧ m ≤ query.anchor.1).length = 1 := by
  have honce := h.tiles.once hfirst (Nat.lt_succ_of_le hlast)
  rw [List.filter_map, List.length_map] at honce
  exact honce

end ConfiguredChain

namespace ChangesTrieBackend

variable {backend : ChangesTrieBackend} {storage : ChangesTrieStorage} {chain : ConfiguredChain}
  {first last n top fuel : ℕ} {failIfDisabled : Bool}

/-- How a round of the loop at block `n` ends. -/
inductive Round (backend : ChangesTrieBackend) (storage : ChangesTrieStorage)
    (chain : ConfiguredChain) (last first : ℕ) (failIfDisabled : Bool) (fuel n : ℕ) : Prop
  | disabled (hconfig : chain.config n = none)
      (hrun : ∀ configs, backend.collectConfigs storage first failIfDisabled (fuel + 1)
        (chain.hash n) configs =
          if failIfDisabled then some (.error .changesTriesNotSupported) else some (.ok configs))
  | reaches (endBlock : Option (BlockNumber × Hash)) (config : ChangesTrieConfiguration)
      (hends : chain.EndsAt last n endBlock) (hconfig : chain.config n = some config)
      (hlt : chain.zero n < first)
      (hrun : ∀ configs, backend.collectConfigs storage first failIfDisabled (fuel + 1)
        (chain.hash n) configs = some (.ok (configs ++ [⟨chain.zero n, endBlock, config⟩])))
  | further (endBlock : Option (BlockNumber × Hash)) (config : ChangesTrieConfiguration) (k : ℕ)
      (hends : chain.EndsAt last n endBlock) (hconfig : chain.config n = some config)
      (hle : first ≤ k + 1) (hzero : chain.zero n = k + 1)
      (hrun : ∀ configs, backend.collectConfigs storage first failIfDisabled (fuel + 1)
        (chain.hash n) configs = backend.collectConfigs storage first failIfDisabled fuel
          (chain.hash k) (configs ++ [⟨k + 1, endBlock, config⟩]))
  | root (endBlock : Option (BlockNumber × Hash)) (config : ChangesTrieConfiguration)
      (parentHash : Hash) (error : Error) (hconfig : chain.config n = some config)
      (hfirst : first = 0) (hzero : chain.zero n = 0)
      (hparent : storage.configurationAt (.hash parentHash) = .error error)
      (hrun : ∀ configs, backend.collectConfigs storage first failIfDisabled (fuel + 1)
        (chain.hash n) configs = backend.collectConfigs storage first failIfDisabled fuel
          parentHash (configs ++ [⟨0, endBlock, config⟩]))

theorem round (hserves : backend.Serves storage chain last) (hn : n ≤ last) :
    Round backend storage chain last first failIfDisabled fuel n := by
  obtain ⟨endBlock, hends, hrange⟩ := hserves.range n hn
  rcases hconfig : chain.config n with _ | config
  · apply Round.disabled hconfig
    intro configs
    rw [collectConfigs, hrange, hconfig]
  by_cases hlt : chain.zero n < first
  · apply Round.reaches endBlock config hends hconfig hlt
    intro configs
    rw [collectConfigs, hrange, hconfig]
    exact if_pos hlt
  · rcases hzero : chain.zero n with _ | k
    · obtain ⟨header, error, hheader, herror⟩ := hserves.genesis
      apply Round.root endBlock config header.parentHash error hconfig (by omega) hzero herror
      intro configs
      rw [hzero] at hlt
      simp only [collectConfigs, hrange, hconfig, hzero, if_neg hlt,
        Blockchain.expectHeader_of_header hheader]
    · have hle := chain.zero_le n
      obtain ⟨header, hheader, hparent⟩ := hserves.header k (by omega)
      apply Round.further endBlock config k hends hconfig (by omega) hzero
      intro configs
      rw [hzero] at hlt
      simp only [collectConfigs, hrange, hconfig, hzero, if_neg hlt,
        Blockchain.expectHeader_of_header hheader, hparent]

/-- The loop goes up until it is above `first` or comes to a block after which
changes tries are disabled. -/
theorem collectConfigs_covers (hserves : backend.Serves storage chain last) (hfirst : 0 < first)
    (hfuel : n < fuel) (hcomes : chain.ComesTo last n top) (htop : first ≤ top)
    (configs : List CollectedConfig) :
    ((∃ m, first ≤ m + 1 ∧ m ≤ n ∧ chain.config m = none) ∧
      backend.collectConfigs storage first true fuel (chain.hash n) configs =
        some (.error .changesTriesNotSupported)) ∨
    (∀ m, first ≤ m + 1 → m ≤ n → chain.config m ≠ none) ∧ ∃ ranges,
      backend.collectConfigs storage first true fuel (chain.hash n) configs =
        some (.ok (configs ++ ranges)) ∧
      chain.Covers first top
        (ranges.map fun range ↦ range.query first (last, chain.hash last)) := by
  induction fuel generalizing n top configs with
  | zero => exact absurd hfuel (Nat.not_lt_zero n)
  | succ fuel ih =>
      obtain ⟨hn, hle, htop'⟩ := hcomes.le
      have hzero' := chain.zero_le n
      -- the blocks that are made with the configuration after block `n`
      have hactive : ∀ config, chain.config n = some config → ∀ m, chain.zero n ≤ m → m ≤ n →
          chain.zero m = chain.zero n ∧ chain.config m = some config := by
        intro config hconfig m hm hm'
        rw [← hconfig]
        exact chain.constant hm hm'
      have henabled : ∀ config, chain.config n = some config → ∀ m, chain.zero n ≤ m → m ≤ n →
          chain.config m ≠ none := by
        intro config hconfig m hm hm'
        rw [(hactive config hconfig m hm hm').2]
        exact Option.some_ne_none config
      have hround : Round backend storage chain last first true fuel n := round hserves hn
      rcases hround with
        ⟨hconfig, hrun⟩ | ⟨endBlock, config, hends, hconfig, hlt, hrun⟩ |
        ⟨endBlock, config, k, hends, hconfig, hfurther, hzero, hrun⟩ | ⟨_, _, _, _, _, hnone, -⟩
      · exact Or.inl ⟨⟨n, by omega, Nat.le_refl n, hconfig⟩, hrun configs⟩
      · refine Or.inr ⟨?_, [⟨chain.zero n, endBlock, config⟩], hrun configs, ?_⟩
        · intro m hm hm'
          exact henabled config hconfig m (by omega) hm'
        · refine (ConfiguredChain.covers_nil hfirst).cons (by omega) (by omega) ?_
            (hcomes.anchor hends _ config) ?_
          · rw [Nat.sub_add_cancel hfirst]
            exact Nat.max_eq_left hlt
          · intro m hm hm'
            exact hactive config hconfig m (by omega) (by omega)
      · have hcomes' : chain.ComesTo last k (k + 1) := by
          refine Or.inr ⟨by omega, ?_, rfl⟩
          rw [← hzero]
          exact (chain.constant (Nat.le_refl _) hzero').1
        rw [hrun]
        rcases ih (by omega) hcomes' (by omega) (configs ++ [⟨k + 1, endBlock, config⟩]) with
          ⟨⟨m, hm, hle', hnone⟩, hrun⟩ | ⟨hsome, ranges, hrun, hcovers⟩
        · exact Or.inl ⟨⟨m, hm, by omega, hnone⟩, hrun⟩
        · refine Or.inr ⟨?_, ⟨k + 1, endBlock, config⟩ :: ranges, by simp [hrun], ?_⟩
          · intro m hm hm'
            by_cases hmk : m ≤ k
            · exact hsome m hm hmk
            · exact henabled config hconfig m (by omega) hm'
          · refine hcovers.cons (by omega) (by omega) ?_ (hcomes.anchor hends _ config) ?_
            · exact Nat.max_eq_right (Nat.le_succ_of_le hfurther)
            · intro m hm hm'
              rw [← hzero] at hm ⊢
              exact hactive config hconfig m hm (by omega)
      · omega

/-- Where the loop ends that does not fail at a disabled range: at the first
block of a run of enabled ones, which is above `first` or cannot be made
longer. -/
structure Oldest (chain : ConfiguredChain) (first last z : ℕ) : Prop where
  le : z ≤ last
  enabled : ∀ m, z ≤ m → m ≤ last → chain.config m ≠ none
  reaches : z < first ∨ 0 < z ∧ chain.config (z - 1) = none

theorem collectConfigs_oldest (hserves : backend.Serves storage chain last) (hfuel : n + 1 < fuel)
    (hn : n ≤ last) (configs : List CollectedConfig) :
    ((first = 0 ∧ ∀ m ≤ n, chain.config m ≠ none) ∧ ∃ error,
      backend.collectConfigs storage first false fuel (chain.hash n) configs =
        some (.error error)) ∨
    (first = 0 → ∃ m ≤ n, chain.config m = none) ∧ ∃ ranges,
      backend.collectConfigs storage first false fuel (chain.hash n) configs =
        some (.ok (configs ++ ranges)) ∧
      (ranges = [] ∧ chain.config n = none ∨
        ∃ range, ranges.getLast? = some range ∧ Oldest chain first n range.zero) := by
  induction fuel generalizing n configs with
  | zero => exact absurd hfuel (Nat.not_lt_zero (n + 1))
  | succ fuel ih =>
      have hzero' := chain.zero_le n
      have henabled : ∀ config, chain.config n = some config → ∀ m, chain.zero n ≤ m → m ≤ n →
          chain.config m ≠ none := by
        intro config hconfig m hm hm'
        rw [(chain.constant hm hm').2, hconfig]
        exact Option.some_ne_none config
      have hround : Round backend storage chain last first false fuel n := round hserves hn
      rcases hround with
        ⟨hconfig, hrun⟩ | ⟨endBlock, config, -, hconfig, hlt, hrun⟩ |
        ⟨endBlock, config, k, -, hconfig, hfurther, hzero, hrun⟩ |
        ⟨endBlock, config, parentHash, error, hconfig, hfirst, hzero, hparent, hrun⟩
      · exact Or.inr ⟨fun _ ↦ ⟨n, Nat.le_refl n, hconfig⟩, [], by simp [hrun],
          Or.inl ⟨rfl, hconfig⟩⟩
      · refine Or.inr ⟨by omega, [⟨chain.zero n, endBlock, config⟩], hrun configs,
          Or.inr ⟨_, rfl, hzero', henabled config hconfig, Or.inl hlt⟩⟩
      · have hlonger : ∀ z ≤ k, (∀ m, z ≤ m → m ≤ k → chain.config m ≠ none) →
            ∀ m, z ≤ m → m ≤ n → chain.config m ≠ none := by
          intro z _ hsome m hm hm'
          by_cases hmk : m ≤ k
          · exact hsome m hm hmk
          · exact henabled config hconfig m (by omega) hm'
        rw [hrun]
        rcases ih (n := k) (by omega) (by omega) (configs ++ [⟨k + 1, endBlock, config⟩]) with
          ⟨⟨hfirst, hsome⟩, error, hrun⟩ | ⟨hnone, ranges, hrun, holdest⟩
        · refine Or.inl ⟨⟨hfirst, fun m ↦ ?_⟩, error, hrun⟩
          exact hlonger 0 (Nat.zero_le k) (fun m _ ↦ hsome m) m (Nat.zero_le m)
        · refine Or.inr ⟨?_, ⟨k + 1, endBlock, config⟩ :: ranges, by simp [hrun], Or.inr ?_⟩
          · intro hfirst
            obtain ⟨m, hm, hconfig'⟩ := hnone hfirst
            exact ⟨m, by omega, hconfig'⟩
          · rcases holdest with ⟨rfl, hdisabled⟩ | ⟨range, hrange, hle, hsome, hreaches⟩
            · have hle : k + 1 ≤ n := hzero ▸ hzero'
              rw [hzero] at henabled
              exact ⟨⟨k + 1, endBlock, config⟩, rfl, hle, henabled config hconfig,
                Or.inr ⟨Nat.succ_pos k, hdisabled⟩⟩
            · have hle' : range.zero ≤ n := Nat.le_trans hle (by omega)
              refine ⟨range, ?_, hle', hlonger _ hle hsome, hreaches⟩
              rw [List.getLast?_cons, hrange]
              rfl
      · refine Or.inl ⟨⟨hfirst, fun m hm ↦ ?_⟩, .chain error, ?_⟩
        · exact henabled config hconfig m (by omega) hm
        · obtain ⟨fuel, rfl⟩ : ∃ more, fuel = more + 1 := Nat.exists_eq_succ_of_ne_zero (by omega)
          rw [hrun, collectConfigs, hparent]

variable {lastBlock : BlockId}

theorem keyChanges_of_collected (hserves : backend.Serves storage chain last)
    (hlast : backend.expectLast lastBlock = .ok (last, chain.hash last))
    {ranges : List CollectedConfig} (storageKey : Option Bytes) (key : Bytes)
    (hrun : backend.collectConfigs storage first true fuel (chain.hash last) [] =
      some (.ok ranges)) :
    backend.keyChanges fuel first lastBlock storageKey key =
      some (((ranges.map fun range ↦ range.query first (last, chain.hash last)).mapM
        (backend.search storage storageKey key)).map List.flatten) := by
  have hfold := foldlM_append (fun range : CollectedConfig ↦ backend.search storage storageKey key
    (range.query first (last, chain.hash last))) ranges []
  rw [List.mapM_map]
  simp only [keyChanges, hlast, requireChangesTrie, hserves.storage_eq, hrun]
  exact congrArg some hfold

/-- What is asked for between two blocks after which changes tries are enabled. -/
theorem key_changes_covers (hserves : backend.Serves storage chain last)
    (hlast : backend.expectLast lastBlock = .ok (last, chain.hash last)) (hfirst : 0 < first)
    (hle : first ≤ last) (hfuel : last < fuel) (storageKey : Option Bytes) (key : Bytes) :
    ((∃ m, first ≤ m + 1 ∧ m ≤ last ∧ chain.config m = none) ∧
      backend.keyChanges fuel first lastBlock storageKey key =
        some (.error .changesTriesNotSupported)) ∨
    (∀ m, first ≤ m + 1 → m ≤ last → chain.config m ≠ none) ∧ ∃ queries,
      chain.Covers first last queries ∧
      (∀ m, first ≤ m → m ≤ last →
        (queries.filter fun query ↦ query.first ≤ m ∧ m ≤ query.anchor.1).length = 1) ∧
      backend.keyChanges fuel first lastBlock storageKey key =
        some ((queries.mapM (backend.search storage storageKey key)).map List.flatten) := by
  rcases collectConfigs_covers hserves hfirst hfuel (Or.inl ⟨rfl, rfl⟩) hle [] with
    ⟨hnone, hrun⟩ | ⟨hsome, ranges, hrun, hcovers⟩
  · refine Or.inl ⟨hnone, ?_⟩
    simp only [keyChanges, hlast, requireChangesTrie, hserves.storage_eq, hrun]
    rfl
  · exact Or.inr ⟨hsome, _, hcovers, fun m ↦ hcovers.once,
      keyChanges_of_collected hserves hlast storageKey key hrun⟩

/-- How far up the range can start, and that it can be queried from the block
after that one on. -/
theorem max_key_changes_range_exclusive (hserves : backend.Serves storage chain last)
    (hlast : backend.expectLast lastBlock = .ok (last, chain.hash last)) (hle : first ≤ last)
    (hfuel : last + 1 < fuel) :
    ∃ answer, backend.maxKeyChangesRange fuel first lastBlock = some (.ok answer) ∧
      (answer = none ↔ chain.config last = none ∨
        first = 0 ∧ ∀ m ≤ last, chain.config m ≠ none) ∧
      ∀ start block, answer = some (start, block) → block = lastBlock ∧
        (∃ z, Oldest chain first last z ∧ start = max z storage.oldestPrunedDigestRangeEnd) ∧
        ∀ first', start < first' → first' ≤ last → ∀ storageKey key, ∃ queries,
          chain.Covers first' last queries ∧
          backend.keyChanges fuel first' block storageKey key =
            some ((queries.mapM (backend.search storage storageKey key)).map List.flatten) := by
  have hanswer : ∀ required, backend.collectConfigs storage first false fuel (chain.hash last) [] =
      some required → backend.maxKeyChangesRange fuel first lastBlock =
        some (.ok (required.toOption.bind fun configs ↦ configs.getLast?.map fun range ↦
          (max range.zero storage.oldestPrunedDigestRangeEnd, lastBlock))) := by
    intro required hrun
    simp only [maxKeyChangesRange, hlast, requireChangesTrie, hserves.storage_eq, hrun,
      if_neg (Nat.not_lt.mpr hle)]
    cases required <;> rfl
  have holdest := @collectConfigs_oldest _ _ _ first _ _ _ hserves hfuel (Nat.le_refl last) []
  rcases holdest with
    ⟨henabled, error, hrun⟩ | ⟨hnone, ranges, hrun, ⟨rfl, hdisabled⟩ | ⟨range, hrange, holdest⟩⟩
  · exact ⟨none, hanswer _ hrun, iff_of_true rfl (Or.inr henabled), by simp⟩
  · exact ⟨none, hanswer _ hrun, iff_of_true rfl (Or.inl hdisabled), by simp⟩
  · refine ⟨some (max range.zero storage.oldestPrunedDigestRangeEnd, lastBlock), ?_, ?_, ?_⟩
    · rw [hanswer _ hrun]
      simp [Except.toOption, hrange]
    · refine iff_of_false (Option.some_ne_none _) ?_
      rintro (hdisabled | ⟨hfirst, henabled⟩)
      · exact holdest.enabled last holdest.le (Nat.le_refl last) hdisabled
      · obtain ⟨m, hm, hdisabled⟩ := hnone hfirst
        exact henabled m hm hdisabled
    · rintro start block hsome
      obtain ⟨rfl, rfl⟩ := Prod.mk.inj (Option.some.inj hsome)
      refine ⟨rfl, ⟨_, holdest, rfl⟩, ?_⟩
      intro first' hstart hle' storageKey key
      have hz : range.zero < first' := Nat.lt_of_le_of_lt (Nat.le_max_left _ _) hstart
      rcases collectConfigs_covers hserves (Nat.zero_lt_of_lt hz) (Nat.lt_of_succ_lt hfuel)
        (Or.inl ⟨rfl, rfl⟩) hle' [] with
        ⟨⟨m, hm, hm', hdisabled⟩, -⟩ | ⟨-, ranges, hrun, hcovers⟩
      · have hzm : range.zero ≤ m := Nat.le_of_lt_succ (Nat.lt_of_lt_of_le hz hm)
        exact absurd hdisabled (holdest.enabled m hzm hm')
      · exact ⟨_, hcovers, keyChanges_of_collected hserves hlast storageKey key hrun⟩

end ChangesTrieBackend

namespace Sample

/-- A chain whose second block has changed the configuration. -/
def configuredChain : ConfiguredChain where
  hash n := [UInt8.ofNat n]
  zero n := if n < 2 then 0 else 2
  config n := some (if n < 2 then ⟨4, 1⟩ else ⟨8, 2⟩)
  zero_le n := by split <;> omega
  constant := by
    intro m n hm hm'
    by_cases hn : n < 2
    · have hm'' : m < 2 := Nat.lt_of_le_of_lt hm' hn
      simp [hn, hm'']
    · rw [if_neg hn] at hm
      have hm'' : ¬ m < 2 := Nat.not_lt.mpr hm
      simp [hn, hm'']

def blockOf (hash : Hash) : ℕ := (hash.headD 9).toNat

/-- A key has changed in blocks two and three. -/
def fiveTries : ChangesTrieStorage where
  configurationAt
    | .hash hash =>
        if blockOf hash ≤ 4 then
          .ok ⟨(configuredChain.zero (blockOf hash),
              configuredChain.hash (configuredChain.zero (blockOf hash))),
            if blockOf hash < 2 then some (2, [2]) else none, configuredChain.config (blockOf hash)⟩
        else .error (.unknownBlock "")
    | .number _ => .error (.unknownBlock "")
  oldestPrunedDigestRangeEnd := 0
  keyChanges query _ _ _ :=
    .ok ([(3, 1), (2, 1)].filter fun change ↦ query.first ≤ change.1 ∧ change.1 ≤ query.anchor.1)

def fiveBlocks : ChangesTrieBackend where
  blockchain := {
    header
      | .hash hash => .ok (if blockOf hash ≤ 4 then
          some ⟨if blockOf hash = 0 then [] else [UInt8.ofNat (blockOf hash - 1)], blockOf hash, [],
            [], []⟩ else none)
      | .number _ => .ok none
    body := fun _ ↦ .ok none
    justifications := fun _ ↦ .ok none
    number := fun hash ↦ .ok (some (blockOf hash))
    hash := fun _ ↦ .ok none
    info := ⟨[4], 4, [0], 0⟩ }
  changesTrieStorage := some fiveTries

theorem fiveBlocks_serves : fiveBlocks.Serves fiveTries configuredChain 4 where
  storage_eq := rfl
  header n hn := by
    obtain rfl | rfl | rfl | rfl : n = 0 ∨ n = 1 ∨ n = 2 ∨ n = 3 := by omega
    all_goals exact ⟨_, rfl, rfl⟩
  range n hn := by
    by_cases hlt : n < 2
    · have hends : configuredChain.EndsAt 4 n (some (2, [2])) := by
        refine Or.inr ⟨2, by omega, hlt, rfl, rfl, ?_⟩
        obtain rfl | rfl : n = 0 ∨ n = 1 := by omega
        all_goals rfl
      refine ⟨_, hends, ?_⟩
      obtain rfl | rfl : n = 0 ∨ n = 1 := by omega
      all_goals rfl
    · have hends : configuredChain.EndsAt 4 n none := (if_neg hlt).symm
      refine ⟨_, hends, ?_⟩
      obtain rfl | rfl | rfl : n = 2 ∨ n = 3 ∨ n = 4 := by omega
      all_goals rfl
  genesis := ⟨_, _, rfl, rfl⟩

end Sample

namespace ChangesTrieBackend

/-- Two queries are made, and their results put together. -/
theorem key_changes_covers_two :
    Sample.fiveBlocks.keyChanges 5 1 (.hash [4]) none [] = some (.ok [(3, 1), (2, 1)]) ∧
      ∃ queries, Sample.configuredChain.Covers 1 4 queries ∧
        (queries.mapM (Sample.fiveBlocks.search Sample.fiveTries none [])).map List.flatten =
          .ok [(3, 1), (2, 1)] := by
  have hrun : Sample.fiveBlocks.keyChanges 5 1 (.hash [4]) none [] =
      some (.ok [(3, 1), (2, 1)]) := rfl
  refine ⟨hrun, ?_⟩
  have hlast : Sample.fiveBlocks.expectLast (.hash [4]) =
      .ok (4, Sample.configuredChain.hash 4) := rfl
  rcases key_changes_covers Sample.fiveBlocks_serves hlast Nat.one_pos (by decide)
    (Nat.lt_succ_self 4) none [] with ⟨⟨m, -, -, hnone⟩, -⟩ | ⟨-, queries, hcovers, -, hsearch⟩
  · exact absurd hnone (Option.some_ne_none _)
  · exact ⟨queries, hcovers, Option.some.inj (hsearch.symm.trans hrun)⟩

/-- The answer starts with the genesis block, which no query may start with. -/
theorem max_key_changes_range_exclusive_genesis :
    Sample.fiveBlocks.maxKeyChangesRange 6 1 (.hash [4]) = some (.ok (some (0, .hash [4]))) ∧
      Sample.fiveBlocks.keyChanges 6 0 (.hash [4]) none [] =
        some (.error (.chain (.unknownBlock ""))) ∧
      ∀ first, 0 < first → first ≤ 4 → ∃ queries,
        Sample.configuredChain.Covers first 4 queries := by
  refine ⟨rfl, rfl, ?_⟩
  intro first hfirst hle
  have hlast : Sample.fiveBlocks.expectLast (.hash [4]) =
      .ok (4, Sample.configuredChain.hash 4) := rfl
  have hle' : 1 ≤ 4 := by decide
  obtain ⟨answer, hrun, -, hanswer⟩ :=
    max_key_changes_range_exclusive Sample.fiveBlocks_serves hlast hle' (Nat.lt_succ_self 5)
  obtain rfl : some (0, .hash [4]) = answer := Except.ok.inj (Option.some.inj hrun)
  obtain ⟨-, -, hcovers⟩ := hanswer 0 (.hash [4]) rfl
  obtain ⟨queries, hqueries, -⟩ := hcovers first hfirst hle none []
  exact ⟨queries, hqueries⟩

end ChangesTrieBackend

end SubArchive
